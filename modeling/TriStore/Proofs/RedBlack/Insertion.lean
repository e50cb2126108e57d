import TriStore.RedBlack.Insertion
import TriStore.Proofs.RedBlack.Balance
import TriStore.Proofs.RedBlack.Entries

/-!
# Insertion keeps trees in order and in balance

Before each round of repair the tree is balanced but for one edge: the focus is red and its parent
may be red too. A round keeps the entries in order and either climbs two levels or leaves a black
parent, so the rounds that a path has levels for are enough.
-/

namespace TriStore.RedBlack.Insertion

theorem entries_straighten {c c' : Cursor} (h : straighten? c = some c') :
    c'.tree.entries = c.tree.entries := by
  obtain ⟨focus, path⟩ := c
  match path, h with
  | parent :: grand :: path, h =>
    simp only [straighten?] at h
    split at h
    · rw [← Option.some.inj h]
    · rw [Cursor.entries_rotate_down h]
      rfl

theorem entries_raiseParent {c c' : Cursor} (h : raiseParent? c = some c') :
    c'.tree.entries = c.tree.entries := by
  obtain ⟨focus, path⟩ := c
  match path, h with
  | parent :: grand :: path, h =>
    rw [Cursor.entries_rotate_down h]
    apply Cursor.entries_rebuild_congr
    exact Frame.entries_plug_congr rfl rfl rfl (Frame.entries_plug_congr rfl rfl rfl rfl)

theorem entries_round {c c' : Cursor} (h : round? c = some c') :
    c'.tree.entries = c.tree.entries := by
  obtain ⟨focus, path⟩ := c
  match path, h with
  | parent :: grand :: path, h =>
    simp only [round?] at h
    split at h
    · rw [← Option.some.inj h]
      apply Cursor.entries_rebuild_congr
      exact Frame.entries_plug_congr rfl rfl (Tree.entries_paint _ _)
        (Frame.entries_plug_congr rfl rfl rfl rfl)
    · obtain ⟨c₁, h₁, h₂⟩ := Option.bind_eq_some_iff.mp h
      rw [entries_raiseParent h₂, entries_straighten h₁]

/-- A red focus whose surroundings are in balance, apart from a red parent. -/
structure RedFocus (n : Nat) (c : Cursor) : Prop where
  red : c.focus.color = .red
  balanced : c.focus.Balanced n
  supports : Supports n c.path

/-- A red parent has a black parent of its own: the root is black. -/
theorem RedFocus.exists_grand {n : Nat} {c : Cursor} (h : RedFocus n c) (hr : redParent c = true) :
    ∃ parent grand path, c.path = parent :: grand :: path ∧ parent.color = .red ∧
      grand.color = .black := by
  obtain ⟨focus, path⟩ := c
  cases path with
  | nil => simp [redParent] at hr
  | cons parent path =>
    have hp : parent.color = .red := by simpa [redParent] using hr
    obtain ⟨_, hg, _, _⟩ := h.supports.red_inv hp
    obtain ⟨grand, rest, rfl, hb⟩ := exists_black_of_parentColor hg
    exact ⟨parent, grand, rest, rfl, hp, hb⟩

section Round
variable {n : Nat} {focus : Tree} {parent grand : Frame} {path : List Frame}

theorem straighten_balanced (h : RedFocus n ⟨focus, parent :: grand :: path⟩)
    (hp : parent.color = .red) :
    ∃ focus' parent', straighten? ⟨focus, parent :: grand :: path⟩ =
        some ⟨focus', parent' :: grand :: path⟩ ∧
      parent'.side = grand.side ∧ focus'.color = .red ∧ focus'.Balanced n ∧
      parent'.sibling.color = .black ∧ parent'.sibling.Balanced n := by
  obtain ⟨side, c, e, s⟩ := parent
  obtain ⟨side', c', e', s'⟩ := grand
  obtain rfl : c = .red := hp
  obtain ⟨hs, _, bs, _⟩ := h.supports.red_inv rfl
  by_cases hside : side = side'
  · exact ⟨focus, ⟨side, .red, e, s⟩, by simp [straighten?, hside], hside, h.red, h.balanced, hs, bs⟩
  · obtain ⟨hred, hfocus, _⟩ := h
    cases hfocus with
    | leaf => simp [Tree.color] at hred
    | black => simp [Tree.color] at hred
    | @red _ y a b ha hb ba bb =>
      -- the focus rises, and its subtree on the near side stays with the parent
      cases side with
      | left =>
        cases side' with
        | left => exact absurd rfl hside
        | right =>
          exact ⟨.node .red e b s, ⟨.right, .red, y, a⟩, rfl, rfl, rfl, .red hb hs bb bs, ha, ba⟩
      | right =>
        cases side' with
        | left =>
          exact ⟨.node .red e s a, ⟨.left, .red, y, b⟩, rfl, rfl, rfl, .red hs ha bs ba, hb, bb⟩
        | right => exact absurd rfl hside

theorem raiseParent_eq (hside : parent.side = grand.side) :
    raiseParent? ⟨focus, parent :: grand :: path⟩ = some ⟨focus,
      { parent with
        color := .black
        sibling := { grand with color := .red }.plug parent.sibling } :: path⟩ := by
  obtain ⟨side, c, e, s⟩ := parent
  obtain ⟨side', c', e', s'⟩ := grand
  obtain rfl : side = side' := hside
  cases side <;> rfl

/-- What a round does at a red node with a red parent: it climbs two levels, or it ends below a
black parent. -/
theorem round_step (h : RedFocus n ⟨focus, parent :: grand :: path⟩) (hp : parent.color = .red)
    (hg : grand.color = .black) :
    ∃ c' m, round? ⟨focus, parent :: grand :: path⟩ = some c' ∧ RedFocus m c' ∧
      (c'.path = path ∨ redParent c' = false) := by
  obtain ⟨_, _, bs, hgrand⟩ := h.supports.red_inv hp
  obtain ⟨bu, hpath⟩ := hgrand.black_inv hg
  by_cases hu : grand.sibling.color = .red
  · -- a red uncle: parent and uncle turn black, and the grandparent is the red focus
    refine ⟨_, n + 1, if_pos hu, ⟨Frame.color_plug _ _, ?_, hpath⟩, Or.inl rfl⟩
    exact Frame.plug_red_balanced (f := { grand with sibling := grand.sibling.paint .black })
      (Frame.color_plug _ _) grand.sibling.color_paint_black
      (Frame.plug_black_balanced h.balanced bs) (bu.paint_black hu)
  · obtain ⟨focus', parent', hline, hside, hred, bfocus, hs', bs'⟩ := straighten_balanced h hp
    have hblack : grand.sibling.color = .black := Color.eq_black hu
    have hround : round? ⟨focus, parent :: grand :: path⟩ = some ⟨focus',
        { parent' with
          color := .black
          sibling := { grand with color := .red }.plug parent'.sibling } :: path⟩ := by
      rw [round?, if_neg hu, hline]
      exact raiseParent_eq hside
    exact ⟨_, n, hround,
      ⟨hred, bfocus, .black rfl (Frame.plug_red_balanced hs' hblack bs' bu) hpath⟩, Or.inr rfl⟩

end Round

theorem repair_balanced {n : Nat} (rounds : Nat) {c : Cursor} (h : RedFocus n c)
    (hr : c.path.length ≤ rounds) :
    ∃ m, RedFocus m (repair rounds c) ∧ redParent (repair rounds c) = false := by
  induction rounds generalizing c n with
  | zero =>
    have hnil : c.path = [] := List.length_eq_zero_iff.mp (Nat.le_zero.mp hr)
    exact ⟨n, h, by simp [repair, redParent, hnil]⟩
  | succ rounds ih =>
    cases hred : redParent c with
    | false => exact ⟨n, by simpa [repair, hred] using h, by simp [repair, hred]⟩
    | true =>
      obtain ⟨parent, grand, path, hpath, hp, hg⟩ := h.exists_grand hred
      obtain ⟨focus, _⟩ := c
      obtain rfl : _ = parent :: grand :: path := hpath
      obtain ⟨c', m, hround, h', hnext⟩ := round_step h hp hg
      simp only [repair, hred, hround, if_true]
      rcases hnext with hclimb | hend
      · apply ih h'
        simp only [List.length_cons] at hr
        rw [hclimb]
        omega
      · refine ⟨m, ?_⟩
        cases rounds with
        | zero => exact ⟨h', hend⟩
        | succ rounds => simpa [repair, hend] using h'

theorem entries_repair (rounds : Nat) (c : Cursor) :
    (repair rounds c).tree.entries = c.tree.entries := by
  induction rounds generalizing c with
  | zero => rfl
  | succ rounds ih =>
    simp only [repair]
    split
    · split
      · next c' hround => rw [ih, entries_round hround]
      · rfl
    · rfl

/-- A red focus without a red parent leaves only the root to be painted. -/
theorem RedFocus.blackRooted {n : Nat} {c : Cursor} (h : RedFocus n c) (hr : redParent c = false) :
    (c.tree.paint .black).BlackRooted := by
  obtain ⟨focus, path⟩ := c
  cases path with
  | nil => exact ⟨Tree.color_paint_black _, n + 1, h.balanced.paint_black h.red⟩
  | cons parent path =>
    have hp : parent.color = .black := by
      apply Color.eq_black
      simpa [redParent] using hr
    have hfits : Fits n focus (parent :: path) :=
      ⟨h.balanced, h.supports, fun _ => by simp [parentColor?, hp]⟩
    have hroot := (blackRooted_rebuild_iff focus (parent :: path)).mpr ⟨n, hfits⟩
    rwa [Cursor.tree, Tree.paint_of_color hroot.1]

theorem insertAt_blackRooted {n : Nat} {path : List Frame} (h : Fits n .leaf path) (entry : Entry) :
    (insertAt entry path).BlackRooted := by
  have hfocus : RedFocus n ⟨.node .red entry .leaf .leaf, path⟩ :=
    ⟨rfl, .red rfl rfl h.balanced h.balanced, h.supports⟩
  obtain ⟨m, hm, hend⟩ := repair_balanced path.length hfocus (Nat.le_refl _)
  exact hm.blackRooted hend

theorem entries_insertAt (entry : Entry) (path : List Frame) :
    (insertAt entry path).entries = Cursor.before path ++ entry :: Cursor.after path := by
  rw [insertAt, Tree.entries_paint, entries_repair, Cursor.tree, Cursor.entries_rebuild]
  simp [Tree.entries]

end TriStore.RedBlack.Insertion
