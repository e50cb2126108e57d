import TriStore.Proofs.RedBlack.Walk
import TriStore.Proofs.TreeTable

/-!
# Listings and searches of tree tables

The arena of a tree table holds its tree, so what is known of walks through such arenas holds after
every run of calls: a listing from a bound gives just the records that the bound admits, and a search
goes down one path, of which the balance of the tree leaves twice the logarithm of its size.
-/

namespace TriStore

open RedBlack

namespace RedBlack

theorem Bound.admits_included (start key : String) :
    (Bound.included start).admits key = decide (start ≤ key) := by
  rw [admits, Bool.eq_iff_iff, Bool.not_eq_true', decide_eq_false_iff_not, decide_eq_true_iff]
  exact String.not_lt

namespace Cursor

/-- The number of nodes from the root to a place, the one at the place included. -/
def visits : Cursor → Nat
  | ⟨.leaf, path⟩ => path.length
  | ⟨.node _ _ _ _, path⟩ => path.length + 1

theorem visits_le_height (c : Cursor) : c.visits ≤ c.tree.height := by
  obtain ⟨focus, path⟩ := c
  have hheight := Tree.length_add_height_le focus path
  cases focus with
  | leaf => exact hheight
  | node c e l r =>
    rw [Tree.height] at hheight
    exact Nat.le_trans (by rw [visits]; omega) hheight

end Cursor

end RedBlack

namespace TreeTable
variable {t : TreeTable}

theorem range_eq (h : t.WellFormed) (bound : Bound) : t.range bound = some (t.toListFrom bound) := by
  obtain ⟨hholds, hnodup, hsize⟩ := layout_holds h
  exact Layout.range_eq hholds hnodup hsize h.ordered rfl bound

theorem wellFormed_after (capacity : Nat) (calls : List Call) :
    (Table.after (empty capacity) calls).WellFormed := by
  have hempty : LawfulTable.Sound (empty capacity) := empty_wellFormed capacity
  exact (LawfulTable.after_keeps hempty calls).1

/-- After any run of calls a listing from a bound ends, whether or not its key is there, and gives
the records that the bound admits, in the strict order of their keys. -/
theorem range_after (capacity : Nat) (calls : List Call) :
    let t := Table.after (empty capacity) calls
    (Table.toList t).Pairwise (fun r s => r.key < s.key) ∧
      t.range .unbounded = some (Table.toList t) ∧
      (∀ key, t.range (.included key) = some ((Table.toList t).filter (key ≤ ·.key))) ∧
      (∀ key, t.range (.excluded key) = some ((Table.toList t).filter (key < ·.key))) ∧
      ∀ bound, t.range bound = some (t.toListFrom bound) := by
  intro t
  have h : t.WellFormed := wellFormed_after capacity calls
  have hfilter (bound : Bound) :
      t.range bound = some ((Table.toList t).filter (bound.admits ·.key)) := by
    rw [range_eq h, toListFrom, Tree.toListFrom_eq_filter h.ordered]
    rfl
  refine ⟨sorted h, ?_, ?_, fun key => hfilter (.excluded key), range_eq h⟩
  · have hall : (Table.toList t).filter (Bound.unbounded.admits ·.key) = Table.toList t :=
      List.filter_eq_self.mpr fun _ _ => rfl
    rw [hfilter, hall]
  · intro key
    rw [hfilter]
    simp only [Bound.admits_included]

/-- After any run of calls the black height that validation finds bounds the number of records and
the length of each path from both sides. So a search, be it for a key, for the place of a new one or
for a bound, visits at most twice as many nodes as the logarithm of one more than that number. -/
theorem searches_balanced (capacity : Nat) (calls : List Call) :
    let t := Table.after (empty capacity) calls
    let n := Table.size t
    ∃ h, t.validate = .ok h ∧ 1 ≤ h ∧ 2 ^ (h - 1) - 1 ≤ n ∧ n ≤ 4 ^ (h - 1) - 1 ∧
      (∀ path, Cursor.rebuild .leaf path = t.tree →
        h - 1 ≤ path.length ∧ path.length ≤ 2 * (h - 1)) ∧
      (∀ key, (t.tree.seek key).visits ≤ 2 * (n + 1).log2) ∧
      (∀ key, t.layout.find key (2 * (n + 1).log2) t.layout.root =
        some (((t.tree.find? key).map (·.slot)).getD 0)) ∧
      ∀ bound, t.layout.lowerBound bound (2 * (n + 1).log2) 0 t.layout.root =
        some (((t.tree.entries.find? (bound.admits ·.key)).map (·.slot)).getD 0) := by
  intro t n
  have h : t.WellFormed := wellFormed_after capacity calls
  obtain ⟨hblack, m, hm⟩ := h.blackRooted
  obtain ⟨hholds, -, hvalidate⟩ := validate_of_wellFormed h hm
  have hsize : n = t.tree.size := h.count_eq
  have hlower := hm.pow_le
  have hupper := hm.size_lt.2 hblack
  have hheight := hm.height_le.2 hblack
  have hlog : m ≤ (n + 1).log2 := by
    rw [Nat.le_log2 (Nat.succ_ne_zero n), hsize]
    exact hlower
  have hsteps : t.tree.height ≤ 2 * (n + 1).log2 := by omega
  refine ⟨m + 1, hvalidate, by omega, ?_, ?_, ?_, ?_, ?_, ?_⟩
  · rw [Nat.add_sub_cancel]
    omega
  · rw [Nat.add_sub_cancel]
    omega
  · intro path hpath
    have hblacks : blacks path = m := hm.blacks_eq hpath
    have hle : blacks path ≤ path.length := List.countP_le_length
    have hlength := Tree.length_add_height_le .leaf path
    have hleaf : Tree.leaf.height = 0 := rfl
    rw [hpath, hleaf] at hlength
    omega
  · intro key
    have htree : (t.tree.seek key).tree = t.tree := Cursor.tree_descend key t.tree []
    have hvisits := Cursor.visits_le_height (t.tree.seek key)
    rw [htree] at hvisits
    exact Nat.le_trans hvisits hsteps
  · intro key
    exact Layout.find_eq key hholds hsteps
  · intro bound
    exact Layout.lowerBound_eq bound 0 hholds h.ordered hsteps

end TreeTable

end TriStore
