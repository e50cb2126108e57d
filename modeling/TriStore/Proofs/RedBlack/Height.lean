import Mathlib.Algebra.Group.Nat.Defs
import TriStore.Proofs.RedBlack.Layout

/-!
# Heights

In a balanced tree of black height `n` every path down to a leaf has `n` black nodes, and between two
of them one red node at most. So no path is longer than twice the shortest, and the number of nodes
lies between two powers. Conversely, a tree without two red nodes in a row, all of whose paths have
equally many black nodes, is balanced.
-/

namespace TriStore.RedBlack

def blacks (path : List Frame) : Nat := path.countP (·.color = .black)

theorem blacks_concat (path : List Frame) (f : Frame) :
    blacks (path ++ [f]) = blacks path + if f.color = .black then 1 else 0 := by
  simp [blacks, List.countP_append, List.countP_singleton]

namespace Cursor
variable {t : Tree} {c : Color} {e : Entry} {l r : Tree} {path : List Frame}

theorem rebuild_concat (t : Tree) (path : List Frame) (f : Frame) :
    rebuild t (path ++ [f]) = f.plug (rebuild t path) :=
  rebuild_append t path [f]

theorem rebuild_eq_leaf (h : rebuild t path = .leaf) : path = [] ∧ t = .leaf := by
  rcases List.eq_nil_or_concat path with rfl | ⟨rest, f, rfl⟩
  · exact ⟨rfl, h⟩
  · rw [List.concat_eq_append, rebuild_concat] at h
    obtain ⟨side, c, e, s⟩ := f
    cases side <;> cases h

theorem rebuild_eq_node (h : rebuild t path = .node c e l r) :
    path = [] ∧ t = .node c e l r ∨ ∃ rest f, path = rest ++ [f] ∧ f.color = c ∧
      (rebuild t rest = l ∨ rebuild t rest = r) := by
  rcases List.eq_nil_or_concat path with rfl | ⟨rest, f, rfl⟩
  · exact Or.inl ⟨rfl, h⟩
  · rw [List.concat_eq_append, rebuild_concat] at h
    refine Or.inr ⟨rest, f, List.concat_eq_append, ?_⟩
    obtain ⟨side, d, x, s⟩ := f
    cases side with
    | left =>
      obtain ⟨rfl, -, hl, -⟩ := Tree.node.inj h
      exact ⟨rfl, Or.inl hl⟩
    | right =>
      obtain ⟨rfl, -, -, hr⟩ := Tree.node.inj h
      exact ⟨rfl, Or.inr hr⟩

end Cursor

namespace Tree
variable {n : Nat} {t : Tree}

def height : Tree → Nat
  | leaf => 0
  | node _ _ l r => max l.height r.height + 1

theorem height_le_size (t : Tree) : t.height ≤ t.size := by
  induction t with
  | leaf => exact Nat.le_refl 0
  | node c e l r ihl ihr =>
    rw [height, size_node]
    omega

theorem length_add_height_le (t : Tree) (path : List Frame) :
    path.length + t.height ≤ (Cursor.rebuild t path).height := by
  induction path generalizing t with
  | nil => exact Nat.le_of_eq (Nat.zero_add _)
  | cons f path ih =>
    have hplug : t.height + 1 ≤ (f.plug t).height := by
      obtain ⟨side, c, e, s⟩ := f
      cases side with
      | left => exact Nat.succ_le_succ (Nat.le_max_left _ _)
      | right => exact Nat.succ_le_succ (Nat.le_max_right _ _)
    have hrest := ih (f.plug t)
    rw [List.length_cons, Cursor.rebuild]
    omega

theorem length_le_size (t : Tree) (path : List Frame) :
    path.length ≤ (Cursor.rebuild t path).size := by
  have hheight := length_add_height_le t path
  have hsize := height_le_size (Cursor.rebuild t path)
  omega

theorem exists_path (t : Tree) : ∃ path, Cursor.rebuild .leaf path = t := by
  induction t with
  | leaf => exact ⟨[], rfl⟩
  | node c e l r ihl _ =>
    obtain ⟨path, hpath⟩ := ihl
    refine ⟨path ++ [⟨.left, c, e, r⟩], ?_⟩
    rw [Cursor.rebuild_concat, hpath]
    rfl

namespace Balanced

theorem height_le (h : t.Balanced n) :
    t.height ≤ 2 * n + 1 ∧ (t.color = .black → t.height ≤ 2 * n) := by
  induction h with
  | leaf => exact ⟨Nat.zero_le _, fun _ => Nat.le_refl 0⟩
  | red hl hr _ _ ihl ihr =>
    have hleft := ihl.2 hl
    have hright := ihr.2 hr
    rw [height]
    exact ⟨by omega, nofun⟩
  | black _ _ ihl ihr =>
    have hleft := ihl.1
    have hright := ihr.1
    rw [height]
    exact ⟨by omega, fun _ => by omega⟩

theorem pow_le (h : t.Balanced n) : 2 ^ n ≤ t.size + 1 := by
  induction h with
  | leaf => exact Nat.le_refl 1
  | red _ _ _ _ ihl _ =>
    rw [size_node]
    omega
  | black _ _ ihl ihr =>
    rw [size_node, Nat.pow_succ]
    omega

theorem size_lt (h : t.Balanced n) :
    t.size + 1 ≤ 2 * 4 ^ n ∧ (t.color = .black → t.size + 1 ≤ 4 ^ n) := by
  induction h with
  | leaf => exact ⟨by decide, fun _ => Nat.le_refl 1⟩
  | red hl hr _ _ ihl ihr =>
    have hleft := ihl.2 hl
    have hright := ihr.2 hr
    rw [size_node]
    exact ⟨by omega, nofun⟩
  | black _ _ ihl ihr =>
    have hleft := ihl.1
    have hright := ihr.1
    rw [size_node, Nat.pow_succ]
    exact ⟨by omega, fun _ => by omega⟩

theorem blacks_eq {path : List Frame} (h : t.Balanced n) (hpath : Cursor.rebuild .leaf path = t) :
    blacks path = n := by
  induction h generalizing path with
  | leaf =>
    obtain ⟨rfl, -⟩ := Cursor.rebuild_eq_leaf hpath
    rfl
  | red _ _ _ _ ihl ihr =>
    rcases Cursor.rebuild_eq_node hpath with ⟨-, hleaf⟩ | ⟨rest, f, rfl, hf, hrest⟩
    · cases hleaf
    · have hrest' := hrest.elim ihl ihr
      rw [blacks_concat, hf, hrest']
      rfl
  | black _ _ ihl ihr =>
    rcases Cursor.rebuild_eq_node hpath with ⟨-, hleaf⟩ | ⟨rest, f, rfl, hf, hrest⟩
    · cases hleaf
    · have hrest' := hrest.elim ihl ihr
      rw [blacks_concat, hf, hrest']
      rfl

end Balanced

/-- No red node, wherever it stands in the tree, has a red child. -/
def RedsApart (t : Tree) : Prop := ∀ e l r path, Cursor.rebuild (node .red e l r) path = t →
  l.color = .black ∧ r.color = .black

theorem Balanced.redsApart (h : t.Balanced n) : t.RedsApart := by
  induction h with
  | leaf =>
    intro e l r path hpath
    cases (Cursor.rebuild_eq_leaf hpath).2
  | red hl hr _ _ ihl ihr =>
    intro e l r path hpath
    rcases Cursor.rebuild_eq_node hpath with ⟨-, hroot⟩ | ⟨rest, f, -, -, hrest⟩
    · obtain ⟨-, -, rfl, rfl⟩ := Tree.node.inj hroot
      exact ⟨hl, hr⟩
    · exact hrest.elim (ihl e l r rest) (ihr e l r rest)
  | black _ _ ihl ihr =>
    intro e l r path hpath
    rcases Cursor.rebuild_eq_node hpath with ⟨-, hroot⟩ | ⟨rest, f, -, -, hrest⟩
    · cases hroot
    · exact hrest.elim (ihl e l r rest) (ihr e l r rest)

theorem RedsApart.of_plug {f : Frame} (h : (f.plug t).RedsApart) : t.RedsApart := by
  intro e l r path hpath
  apply h e l r (path ++ [f])
  rw [Cursor.rebuild_concat, hpath]

theorem balanced_of_paths (hreds : t.RedsApart)
    (hblacks : ∀ path, Cursor.rebuild .leaf path = t → blacks path = n) : t.Balanced n := by
  induction t generalizing n with
  | leaf =>
    obtain rfl : 0 = n := hblacks [] rfl
    exact .leaf
  | node c e l r ihl ihr =>
    have hl : ∀ path, Cursor.rebuild .leaf path = l →
        blacks path + (if c = .black then 1 else 0) = n := by
      intro path hpath
      rw [← blacks_concat path ⟨.left, c, e, r⟩]
      apply hblacks
      rw [Cursor.rebuild_concat, hpath]
      rfl
    have hr : ∀ path, Cursor.rebuild .leaf path = r →
        blacks path + (if c = .black then 1 else 0) = n := by
      intro path hpath
      rw [← blacks_concat path ⟨.right, c, e, l⟩]
      apply hblacks
      rw [Cursor.rebuild_concat, hpath]
      rfl
    have redsl : l.RedsApart := RedsApart.of_plug (f := ⟨.left, c, e, r⟩) hreds
    have redsr : r.RedsApart := RedsApart.of_plug (f := ⟨.right, c, e, l⟩) hreds
    cases c with
    | red =>
      obtain ⟨hlc, hrc⟩ := hreds e l r [] rfl
      exact .red hlc hrc (ihl redsl hl) (ihr redsr hr)
    | black =>
      -- some path goes through the root, so the black height is positive
      obtain ⟨path, hpath⟩ := exists_path l
      obtain ⟨m, rfl⟩ : ∃ m, n = m + 1 := ⟨blacks path, (hl path hpath).symm⟩
      exact .black (ihl redsl fun p hp => Nat.succ.inj (hl p hp))
        (ihr redsr fun p hp => Nat.succ.inj (hr p hp))

end Tree

end TriStore.RedBlack
