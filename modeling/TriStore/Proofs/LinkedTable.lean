import TriStore.LinkedTable
import TriStore.Proofs.Sentinel

/-!
# Runs done link by link

A linked table keeps a tree table when its cells do and both have the same capacity and free slots.
Each call leads from such a pair to another and has the same answer on both sides, so a whole run,
begun with the sentinel alone, answers, validates and lists as the tree table does.
-/

namespace TriStore

open RedBlack TreeTable

namespace TreeTable.KeptIn
variable {t : TreeTable} {layout : Layout}

theorem size_le (h : t.WellFormed) (hkept : t.KeptIn layout) : t.tree.size ≤ layout.cells.size := by
  rw [hkept.size_eq]
  exact size_le_slots h

theorem validate_eq (h : t.WellFormed) (hkept : t.KeptIn layout) : layout.validate = t.validate := by
  obtain ⟨hblack, n, hn⟩ := h.blackRooted
  obtain ⟨-, -, hvalidate⟩ := validate_of_wellFormed h hn
  rw [hvalidate]
  exact Layout.validate_eq_ok hkept.root_eq (hkept.count_eq.trans h.count_eq) (hkept.size_le h)
    (congrArg Cell.color hkept.sentinel) hkept.holds hblack hn h.ordered

theorem range_eq (h : t.WellFormed) (hkept : t.KeptIn layout) (bound : Bound) :
    layout.range bound = some (t.toListFrom bound) :=
  Layout.range_eq hkept.holds (slots_of_wellFormed h).1 (hkept.size_le h) h.ordered hkept.root_eq bound

theorem find_eq (h : t.WellFormed) (hkept : t.KeptIn layout) (key : String) :
    layout.find key layout.cells.size layout.root =
      some (((t.tree.find? key).map (·.slot)).getD 0) := by
  rw [hkept.root_eq]
  exact Layout.find_eq key hkept.holds (Nat.le_trans (Tree.height_le_size _) (hkept.size_le h))

end TreeTable.KeptIn

namespace TreeTable
variable {t : TreeTable} {key : String} {c : Color} {e : Entry} {l r : Tree} {path : List Frame}

theorem perform_present (hseek : t.tree.seek key = ⟨.node c e l r, path⟩) (value : String) :
    Table.perform t (.insert key value) = (.refused .keyExists, t) := by
  have hinsert : Table.insert t key value = .error .keyExists := by
    change t.insert key value = _
    rw [insert, hseek]
  rw [Table.perform, hinsert]

/-- A key that is not there is neither replaced nor taken out. -/
theorem perform_absent (hseek : t.tree.seek key = ⟨.leaf, path⟩) :
    (∀ value, Table.perform t (.replace key value) = (.refused .keyNotFound, t)) ∧
      Table.perform t (.erase key) = (.refused .keyNotFound, t) := by
  have hreplace (value : String) : Table.replace t key value = .error .keyNotFound := by
    change t.replace key value = _
    rw [replace, hseek]
  have herase : Table.erase t key = .error .keyNotFound := by
    change t.erase key = _
    rw [erase, hseek]
  refine ⟨fun value => ?_, ?_⟩
  · rw [Table.perform, hreplace]
  · rw [Table.perform, herase]

/-- The place that loses a node lies no deeper than the tree has nodes. -/
theorem length_detach_le (h : t.WellFormed) (hseek : t.tree.seek key = ⟨.node c e l r, path⟩) :
    (Deletion.detach c l r path).1.path.length ≤ t.tree.size := by
  obtain ⟨n, hfits⟩ := fits_of_seek h hseek
  have hentries := congrArg List.length (Deletion.detach_spec hfits).2
  have hold := congrArg List.length (Tree.entries_of_seek_node hseek)
  have hpath := Tree.length_le_size (Deletion.detach c l r path).1.focus
    (Deletion.detach c l r path).1.path
  simp only [List.length_append, List.length_cons] at hentries hold
  change _ ≤ (Cursor.tree _).entries.length at hpath
  change _ ≤ t.tree.entries.length
  omega

end TreeTable

namespace LinkedTable
variable {linked : LinkedTable} {t : TreeTable} {key : String}

structure Keeps (linked : LinkedTable) (t : TreeTable) : Prop where
  kept : t.KeptIn linked.layout
  capacity_eq : linked.capacity = t.capacity
  free_eq : linked.free = t.free

/-- The answer to a call is that of the tree table, and the table after it keeps the tree table after
it. -/
def Follows (t : TreeTable) (call : Call) (next : Answer × LinkedTable) : Prop :=
  ∃ t', Table.perform t call = (next.1, t') ∧ next.2.Keeps t'

namespace Keeps

theorem empty (capacity : Nat) : (LinkedTable.empty capacity).Keeps (.empty capacity) :=
  ⟨⟨trivial, rfl, rfl, rfl, rfl⟩, rfl, rfl⟩

theorem find_leaf {path : List Frame} (h : t.WellFormed) (hkeeps : linked.Keeps t)
    (hseek : t.tree.seek key = ⟨.leaf, path⟩) : Yields (linked.find key) (· = 0) := by
  rw [LinkedTable.find, hkeeps.kept.find_eq h, Tree.find?_of_seek_leaf hseek]
  exact .ok rfl

theorem find_node {c : Color} {e : Entry} {l r : Tree} {path : List Frame} (h : t.WellFormed)
    (hkeeps : linked.Keeps t) (hseek : t.tree.seek key = ⟨.node c e l r, path⟩) :
    Yields (linked.find key) fun slot =>
      slot ≠ 0 ∧ slot = e.slot ∧ (linked.layout.cell slot).record.value = e.record.value := by
  have hmem : e ∈ t.tree.entries := by
    rw [Tree.entries_of_seek_node hseek]
    exact List.mem_append_right _ List.mem_cons_self
  obtain ⟨hzero, -, hrecord⟩ := Layout.cell_of_mem hkeeps.kept.holds hmem
  rw [LinkedTable.find, hkeeps.kept.find_eq h, Tree.find?_of_seek_node hseek]
  exact .ok ⟨hzero, rfl, congrArg Record.value hrecord⟩

theorem get? (h : t.WellFormed) (hkeeps : linked.Keeps t) (key : String) :
    Yields (linked.get? key) (· = Table.get? t key) := by
  obtain ⟨focus, path, hseek⟩ : ∃ focus path, t.tree.seek key = ⟨focus, path⟩ := ⟨_, _, rfl⟩
  change Yields (linked.get? key) (· = (t.tree.find? key).map (·.record.value))
  unfold LinkedTable.get?
  cases focus with
  | leaf =>
    rw [Tree.find?_of_seek_leaf hseek]
    refine (hkeeps.find_leaf h hseek).bind ?_
    rintro slot rfl
    exact .ok rfl
  | node c e l r =>
    rw [Tree.find?_of_seek_node hseek]
    refine (hkeeps.find_node h hseek).bind ?_
    rintro slot ⟨hzero, -, hvalue⟩
    rw [if_neg hzero, hvalue]
    exact .ok rfl

theorem takeSlot_eq (hkeeps : linked.Keeps t) :
    linked.takeSlot = (t.takeSlot.1, t.takeSlot.2.2) := by
  unfold LinkedTable.takeSlot TreeTable.takeSlot
  rw [hkeeps.free_eq, hkeeps.kept.size_eq]
  cases t.free <;> rfl

theorem insert (h : t.WellFormed) (hkeeps : linked.Keeps t) (key value : String) :
    Yields (linked.insert key value) (Follows t (.insert key value)) := by
  obtain ⟨focus, path, hseek⟩ : ∃ focus path, t.tree.seek key = ⟨focus, path⟩ := ⟨_, _, rfl⟩
  unfold LinkedTable.insert
  cases focus with
  | node c e l r =>
    refine (hkeeps.find_node h hseek).bind ?_
    rintro slot ⟨hzero, -⟩
    rw [if_pos hzero]
    exact .ok ⟨t, perform_present hseek value, hkeeps⟩
  | leaf =>
    refine (hkeeps.find_leaf h hseek).bind ?_
    rintro slot rfl
    rw [if_neg (by simp), hkeeps.capacity_eq, hkeeps.kept.count_eq]
    by_cases hfull : t.capacity ≤ t.count
    · have hinsert : Table.insert t key value = .error .storeFull := by
        change t.insert key value = _
        rw [TreeTable.insert, hseek]
        simp only [if_pos hfull]
      rw [if_pos hfull]
      refine .ok ⟨t, ?_, hkeeps⟩
      rw [Table.perform, hinsert]
    · obtain ⟨t', hinsert⟩ : ∃ t', t.insert key value = .ok t' := by
        rw [TreeTable.insert, hseek]
        simp only [if_neg hfull]
        exact ⟨_, rfl⟩
      have hrounds : path.length ≤ linked.layout.cells.size := by
        have hpath := Tree.length_le_size .leaf path
        rw [Tree.rebuild_of_seek hseek] at hpath
        exact Nat.le_trans hpath (hkeeps.kept.size_le h)
      rw [if_neg hfull, hkeeps.takeSlot_eq]
      refine (hkeeps.kept.insert h hinsert hseek hrounds).bind fun layout hkept => ?_
      obtain ⟨_, -, rfl⟩ := insert_eq_ok hinsert
      refine .ok ⟨_, ?_, hkept, rfl, rfl⟩
      rw [Table.perform, show Table.insert t key value = _ from hinsert]

theorem replace (h : t.WellFormed) (hkeeps : linked.Keeps t) (key value : String) :
    Yields (linked.replace key value) (Follows t (.replace key value)) := by
  obtain ⟨focus, path, hseek⟩ : ∃ focus path, t.tree.seek key = ⟨focus, path⟩ := ⟨_, _, rfl⟩
  unfold LinkedTable.replace
  cases focus with
  | leaf =>
    refine (hkeeps.find_leaf h hseek).bind ?_
    rintro slot rfl
    rw [if_pos rfl]
    exact .ok ⟨t, (perform_absent hseek).1 value, hkeeps⟩
  | node c e l r =>
    obtain ⟨t', hreplace⟩ : ∃ t', t.replace key value = .ok (e.record.value, t') := by
      rw [TreeTable.replace, hseek]
      exact ⟨_, rfl⟩
    refine (hkeeps.find_node h hseek).bind ?_
    rintro slot ⟨hzero, rfl, hvalue⟩
    rw [if_neg hzero, hvalue]
    have hkept := hkeeps.kept.replace h hreplace hseek
    obtain ⟨_, _, _, _, _, -, rfl⟩ := replace_eq_ok hreplace
    refine .ok ⟨_, ?_, hkept, hkeeps.capacity_eq, hkeeps.free_eq⟩
    rw [Table.perform, show Table.replace t key value = _ from hreplace]

theorem erase (h : t.WellFormed) (hkeeps : linked.Keeps t) (key : String) :
    Yields (linked.erase key) (Follows t (.erase key)) := by
  obtain ⟨focus, path, hseek⟩ : ∃ focus path, t.tree.seek key = ⟨focus, path⟩ := ⟨_, _, rfl⟩
  unfold LinkedTable.erase
  cases focus with
  | leaf =>
    refine (hkeeps.find_leaf h hseek).bind ?_
    rintro slot rfl
    rw [if_pos rfl]
    exact .ok ⟨t, (perform_absent hseek).2, hkeeps⟩
  | node c e l r =>
    obtain ⟨t', herase⟩ : ∃ t', t.erase key = .ok (e.record.value, t') := by
      rw [TreeTable.erase, hseek]
      exact ⟨_, rfl⟩
    have hrounds : (Deletion.detach c l r path).1.path.length ≤ linked.layout.cells.size :=
      Nat.le_trans (length_detach_le h hseek) (hkeeps.kept.size_le h)
    refine (hkeeps.find_node h hseek).bind ?_
    rintro slot ⟨hzero, rfl, hvalue⟩
    rw [if_neg hzero, hvalue]
    refine (hkeeps.kept.remove h herase hseek hrounds).bind fun layout hkept => ?_
    obtain ⟨_, _, _, _, _, hfound, rfl⟩ := erase_eq_ok herase
    cases hseek.symm.trans hfound
    refine .ok ⟨_, ?_, hkept, hkeeps.capacity_eq, ?_⟩
    · rw [Table.perform, show Table.erase t key = _ from herase]
    · rw [hkeeps.free_eq]

theorem clear (h : t.WellFormed) (hkeeps : linked.Keeps t) : linked.clear.Keeps t.clear := by
  have hsize : (linked.layout.cells.take 1).size = 1 := by
    have hslots := slots_eq h
    rw [Array.take_eq_extract, Array.size_extract, hkeeps.kept.size_eq]
    omega
  refine ⟨⟨trivial, rfl, ?_, ?_, rfl⟩, hkeeps.capacity_eq, rfl⟩
  · apply Layout.cell_eq_of_getElem?
    exact Array.getElem?_setIfInBounds_self_of_lt (by omega)
  · exact Array.size_setIfInBounds.trans hsize

/-- One call: it is not refused, and both sides answer alike. -/
theorem perform (h : t.WellFormed) (hkeeps : linked.Keeps t) (call : Call) :
    Yields (linked.perform call) (Follows t call) := by
  cases call with
  | insert key value => exact hkeeps.insert h key value
  | replace key value => exact hkeeps.replace h key value
  | erase key => exact hkeeps.erase h key
  | get key =>
    refine (hkeeps.get? h key).bind ?_
    rintro value rfl
    exact .ok ⟨t, rfl, hkeeps⟩
  | contains key =>
    refine (hkeeps.get? h key).bind ?_
    rintro value rfl
    exact .ok ⟨t, rfl, hkeeps⟩
  | clear => exact .ok ⟨t.clear, rfl, hkeeps.clear h⟩

theorem run (h : t.WellFormed) (hkeeps : linked.Keeps t) (calls : List Call) :
    Yields (linked.run calls) fun last =>
      last.1 = Table.answers t calls ∧ last.2.Keeps (Table.after t calls) := by
  induction calls generalizing linked t with
  | nil => exact .ok ⟨rfl, hkeeps⟩
  | cons call calls ih =>
    have hsound : LawfulTable.Sound t := h
    have hnext := (LawfulTable.perform_keeps hsound call).1
    rw [Table.answers, Table.after]
    refine (hkeeps.perform h call).bind ?_
    rintro ⟨answer, linked'⟩ ⟨t', hperform, hkeeps'⟩
    rw [hperform] at hnext ⊢
    refine (ih hnext hkeeps').bind ?_
    rintro ⟨answers, last⟩ ⟨rfl, hlast⟩
    exact .ok ⟨rfl, hlast⟩

end Keeps

/-- Every run of calls can be done link by link, from the sentinel alone on: nothing treats the sentinel
as a node, and the repairs end within their rounds. The answers are those of a bounded map, and the
cells keep the tree table after the run, so they pass validation with its black height and give its
listing from each bound. -/
theorem run_keeps (capacity : Nat) (calls : List Call) :
    let t := Table.after (TreeTable.empty capacity) calls
    ∃ linked, (empty capacity).run calls =
        .ok (Table.answers (BoundedMap.empty capacity) calls, linked) ∧
      linked.Keeps t ∧ linked.layout.validate = t.validate ∧ (∃ height, t.validate = .ok height) ∧
      ∀ bound, linked.layout.range bound = some (t.toListFrom bound) := by
  intro t
  have hempty : LawfulTable.Sound (TreeTable.empty capacity) := empty_wellFormed capacity
  obtain ⟨⟨answers, linked⟩, hrun, hanswers, hkeeps⟩ := (Keeps.empty capacity).run hempty calls
  have h : t.WellFormed := wellFormed_after capacity calls
  obtain ⟨-, n, hn⟩ := h.blackRooted
  obtain ⟨-, -, hvalidate⟩ := validate_of_wellFormed h hn
  refine ⟨linked, ?_, hkeeps, hkeeps.kept.validate_eq h, ⟨_, hvalidate⟩, hkeeps.kept.range_eq h⟩
  have hsame : Table.answers (BoundedMap.empty capacity) calls =
      Table.answers (TreeTable.empty capacity) calls := LawfulTable.answers_bounded hempty calls
  rw [hrun, hsame, ← hanswers]

example : ((empty 2).run [.insert "b" "1", .insert "a" "2", .insert "c" "3", .erase "b",
    .insert "c" "3", .replace "a" "4", .get "a"]).map (·.1) =
    .ok [.done, .done, .refused .storeFull, .was "1", .done, .was "2", .found (some "4")] := by
  decide +kernel

end LinkedTable

end TriStore
