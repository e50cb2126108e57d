import Mathlib.Data.List.Induction
import TriStore.Proofs.TreeTable

/-!
# The arena of a tree table

Each slot of the arena is the sentinel's, a node's or free. An insertion takes a free slot, or a new
one at the end where none is free; taking an entry out frees the slot of that entry and no other.
So the arena never grows beyond the most nodes there have been at one time, the sentinel added.
-/

namespace TriStore

open RedBlack

namespace TreeTable
variable {t : TreeTable}

theorem insert_eq_ok {key value : String} {t' : TreeTable} (h : t.insert key value = .ok t') :
    ∃ path, t.tree.seek key = ⟨.leaf, path⟩ ∧
      t' = { t with
        tree := Insertion.insertAt ⟨t.takeSlot.1, key, value⟩ path
        count := t.count + 1
        slots := t.takeSlot.2.1
        free := t.takeSlot.2.2 } := by
  unfold insert at h
  split at h
  · cases h
  · next path hseek =>
    split at h
    · cases h
    · cases h
      exact ⟨path, hseek, rfl⟩

theorem replace_eq_ok {key value old : String} {t' : TreeTable}
    (h : t.replace key value = .ok (old, t')) :
    ∃ c e l r path, t.tree.seek key = ⟨.node c e l r, path⟩ ∧
      t' = { t with tree := Cursor.rebuild (.node c ⟨e.slot, e.key, value⟩ l r) path } := by
  unfold replace at h
  split at h
  · cases h
  · next c e l r path hseek =>
    cases h
    exact ⟨c, e, l, r, path, hseek, rfl⟩

theorem erase_eq_ok {key old : String} {t' : TreeTable} (h : t.erase key = .ok (old, t')) :
    ∃ c e l r path, t.tree.seek key = ⟨.node c e l r, path⟩ ∧
      t' = { t with
        tree := Deletion.eraseAt c l r path
        count := t.count - 1
        free := e.slot :: t.free } := by
  unfold erase at h
  split at h
  · cases h
  · next c e l r path hseek =>
    cases h
    exact ⟨c, e, l, r, path, hseek, rfl⟩

theorem slots_eq (h : t.WellFormed) : t.slots = t.count + 1 + t.free.length := by
  have hlength := h.slots_perm.length_eq
  simp only [List.length_cons, List.length_append, List.length_range, Tree.slots,
    List.length_map] at hlength
  rw [h.count_eq, Tree.size]
  omega

theorem slots_nodup (h : t.WellFormed) : (0 :: (t.tree.slots ++ t.free)).Nodup :=
  h.slots_perm.nodup_iff.mpr List.nodup_range

theorem takeSlot_fresh (h : t.WellFormed) : t.takeSlot.1 ∉ 0 :: t.tree.slots := by
  have hnodup : (0 :: ((t.takeSlot.1 :: t.tree.slots) ++ t.takeSlot.2.2)).Nodup :=
    (takeSlot_perm h.slots_perm).nodup_iff.mpr List.nodup_range
  obtain ⟨hzero, hrest⟩ := List.nodup_cons.mp hnodup
  intro hmem
  rcases List.mem_cons.mp hmem with hslot | hslot
  · exact hzero (hslot ▸ List.mem_cons_self)
  · exact (List.nodup_cons.mp hrest).1 (List.mem_append_left _ hslot)

theorem takeSlot_slots (h : t.WellFormed) : t.takeSlot.2.1 = max t.slots (t.count + 2) := by
  have hslots := slots_eq h
  unfold takeSlot
  split
  · next slot free hfree =>
    rw [hfree, List.length_cons] at hslots
    change t.slots = max t.slots (t.count + 2)
    omega
  · next hfree =>
    rw [hfree, List.length_nil] at hslots
    change t.slots + 1 = max t.slots (t.count + 2)
    omega

/-- Each call but clearing keeps the arena as long as it is, unless it has too few slots. -/
theorem slots_perform (h : t.WellFormed) {call : Call} (hcall : call ≠ .clear) :
    (Table.perform t call).2.slots = max t.slots ((Table.perform t call).2.count + 1) := by
  have hsame : t.slots = max t.slots (t.count + 1) := by
    have hslots := slots_eq h
    omega
  cases call with
  | insert key value =>
    rw [Table.perform]
    cases hinsert : Table.insert t key value with
    | error cause => exact hsame
    | ok t' =>
      obtain ⟨path, -, rfl⟩ := insert_eq_ok hinsert
      exact takeSlot_slots h
  | replace key value =>
    rw [Table.perform]
    cases hreplace : Table.replace t key value with
    | error cause => exact hsame
    | ok found =>
      obtain ⟨old, t'⟩ := found
      obtain ⟨c, e, l, r, path, -, rfl⟩ := replace_eq_ok hreplace
      exact hsame
  | erase key =>
    rw [Table.perform]
    cases herase : Table.erase t key with
    | error cause => exact hsame
    | ok found =>
      obtain ⟨old, t'⟩ := found
      obtain ⟨c, e, l, r, path, -, rfl⟩ := erase_eq_ok herase
      change t.slots = max t.slots (t.count - 1 + 1)
      have hslots := slots_eq h
      omega
  | get key => exact hsame
  | contains key => exact hsame
  | clear => exact absurd rfl hcall

/-- The arena is as long as the largest size since the last clearing asks for. -/
theorem slots_after (capacity : Nat) (calls : List Call) :
    ∃ n, (Table.after (empty capacity) calls).slots = n + 1 ∧
      Table.ReachedSize (empty capacity) calls n ∧
      ∀ m, Table.ReachedSize (empty capacity) calls m → m ≤ n := by
  induction calls using List.reverseRecOn with
  | nil =>
    refine ⟨0, rfl, Table.reachedSize_nil.mpr rfl, fun m hm => ?_⟩
    rw [← Table.reachedSize_nil.mp hm]
    exact Nat.le_refl 0
  | append_singleton calls call ih =>
    have hempty : LawfulTable.Sound (empty capacity) := empty_wellFormed capacity
    obtain ⟨n, hslots, hreached, hmax⟩ := ih
    have hsound : (Table.after (empty capacity) calls).WellFormed :=
      (LawfulTable.after_keeps hempty calls).1
    simp only [Table.reachedSize_concat]
    rw [Table.after_concat]
    generalize Table.after (empty capacity) calls = t at hslots hsound
    by_cases hcall : call = .clear
    · subst hcall
      refine ⟨0, rfl, Or.inl rfl, ?_⟩
      rintro m (hm | ⟨hclear, -⟩)
      · exact Nat.le_of_eq hm.symm
      · exact absurd rfl hclear
    · have hperform := slots_perform hsound hcall
      have hsize : Table.size (Table.perform t call).2 = (Table.perform t call).2.count := rfl
      rw [hsize]
      refine ⟨max n (Table.perform t call).2.count, by omega, ?_, ?_⟩
      · rcases Nat.le_total n (Table.perform t call).2.count with hle | hle
        · exact Or.inl (Nat.max_eq_right hle).symm
        · exact Or.inr ⟨hcall, (Nat.max_eq_left hle).symm ▸ hreached⟩
      · rintro m (hm | ⟨-, hm⟩)
        · omega
        · have hle := hmax m hm
          omega

structure Accounted (t : TreeTable) : Prop where
  cells_size : t.layout.cells.size = t.slots
  linked_iff : ∀ slot, t.layout.Linked slot ↔ slot ∈ t.tree.slots
  slots_perm : (0 :: (t.tree.slots ++ t.free)).Perm (List.range t.slots)
  /-- A new entry gets a slot that was not in use, and all others keep theirs. -/
  inserted : ∀ key value t', t.insert key value = .ok t' →
    ∃ slot, slot ∉ 0 :: t.tree.slots ∧
      t'.tree.entries.Perm (⟨slot, key, value⟩ :: t.tree.entries)
  /-- The slot of the entry taken out, and no other, becomes free. -/
  erased : ∀ key old t', t.erase key = .ok (old, t') →
    ∃ e, e.key = key ∧ e.slot ∉ t.free ∧ t.tree.entries.Perm (e :: t'.tree.entries) ∧
      t'.free = e.slot :: t.free
  replaced : ∀ key value old t', t.replace key value = .ok (old, t') →
    t'.tree.slots = t.tree.slots ∧ t'.free = t.free
  size_lt : Table.size t < t.slots
  free_length : t.free.length = t.slots - 1 - Table.size t

theorem WellFormed.accounted (h : t.WellFormed) : t.Accounted := by
  obtain ⟨hblack, n, hn⟩ := h.blackRooted
  obtain ⟨hholds, -, -⟩ := validate_of_wellFormed h hn
  have hslots := slots_eq h
  have hsize : Table.size t = t.count := rfl
  refine ⟨?_, fun slot => Layout.linked_iff hholds rfl, h.slots_perm, ?_, ?_, ?_, ?_, ?_⟩
  · rw [layout, Layout.ofTree, Tree.size_writeCells, Array.size_replicate]
  · intro key value t' hinsert
    obtain ⟨path, hseek, rfl⟩ := insert_eq_ok hinsert
    obtain ⟨-, -, hperm⟩ := insert_spec value h hseek
    exact ⟨t.takeSlot.1, takeSlot_fresh h, hperm⟩
  · intro key old t' herase
    obtain ⟨c, e, l, r, path, hseek, rfl⟩ := erase_eq_ok herase
    obtain ⟨-, -, hperm⟩ := erase_spec h hseek
    refine ⟨e, Tree.key_of_seek_node hseek, fun hfree => ?_, hperm, rfl⟩
    have hslot : e.slot ∈ t.tree.slots :=
      List.mem_map_of_mem (hperm.mem_iff.mpr List.mem_cons_self)
    obtain ⟨-, hnodup⟩ := List.nodup_cons.mp (slots_nodup h)
    exact (List.nodup_append.mp hnodup).2.2 _ hslot _ hfree rfl
  · intro key value old t' hreplace
    obtain ⟨c, e, l, r, path, hseek, rfl⟩ := replace_eq_ok hreplace
    obtain ⟨-, -, hsame, -⟩ := replace_spec value h hseek
    exact ⟨hsame, rfl⟩
  · omega
  · omega

/-- After any run of calls the slots of the arena are accounted for: the sentinel, the nodes that
links from the root lead to, and the free slots, each once. The arena has one slot more than the
largest size since the last clearing, or since the start. -/
theorem arena_accounted (capacity : Nat) (calls : List Call) :
    let t := Table.after (empty capacity) calls
    t.Accounted ∧ ∃ n, t.slots = n + 1 ∧ Table.ReachedSize (empty capacity) calls n ∧
      ∀ m, Table.ReachedSize (empty capacity) calls m → m ≤ n := by
  have hempty : LawfulTable.Sound (empty capacity) := empty_wellFormed capacity
  exact ⟨WellFormed.accounted (LawfulTable.after_keeps hempty calls).1, slots_after capacity calls⟩

end TreeTable

end TriStore
