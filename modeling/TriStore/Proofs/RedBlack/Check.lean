import TriStore.Proofs.RedBlack.Height
import TriStore.Proofs.RedBlack.Search

/-!
# What the check of a table decides

A table may hold anything: links may be shared or lead back, keys may stand anywhere. The check accepts
exactly those tables that hold a red-black tree. It looks at one cell at a time, with the bounds that
the cells above set, and a cell that it meets again lies outside the bounds that it has set itself. So
the check goes no deeper than there are cells, and what it accepts unfolds into a tree.
-/

namespace TriStore.RedBlack

def between (lower upper : Option String) (key : String) : Bool :=
  lower.all (· < key) && upper.all (key < ·)

theorem between_iff {lower upper : Option String} {key : String} :
    between lower upper key = true ↔
      (∀ low ∈ lower, low < key) ∧ ∀ high ∈ upper, key < high := by
  simp [between, Option.all_eq_true]

section Between
variable {lower upper : Option String} {key other : String}

theorem between_of_left (hkey : between lower upper key = true)
    (h : between lower (some key) other = true) :
    between lower upper other = true ∧ other < key := by
  obtain ⟨hlow, hlt⟩ := between_iff.mp h
  obtain ⟨-, hhigh⟩ := between_iff.mp hkey
  have hless : other < key := hlt key rfl
  exact ⟨between_iff.mpr ⟨hlow, fun high hh => String.lt_trans hless (hhigh high hh)⟩, hless⟩

theorem between_of_right (hkey : between lower upper key = true)
    (h : between (some key) upper other = true) :
    between lower upper other = true ∧ key < other := by
  obtain ⟨hlt, hhigh⟩ := between_iff.mp h
  obtain ⟨hlow, -⟩ := between_iff.mp hkey
  have hless : key < other := hlt key rfl
  exact ⟨between_iff.mpr ⟨fun low hl => String.lt_trans (hlow low hl) hless, hhigh⟩, hless⟩

end Between

namespace Layout

/-- Every link to a child, and that to the root, leads to a cell of the table. -/
structure Closed (layout : Layout) : Prop where
  root_lt : layout.root < layout.cells.size
  left_lt : ∀ slot < layout.cells.size, (layout.cell slot).left < layout.cells.size
  right_lt : ∀ slot < layout.cells.size, (layout.cell slot).right < layout.cells.size

def flaw? (layout : Layout) (slot parent : Nat) (lower upper : Option String) : Option Defect :=
  let cell := layout.cell slot
  let key := cell.record.key
  if cell.parent ≠ parent then some (.brokenParent key)
  else if !between lower upper key then some (.outOfOrder key)
  else if cell.color = .red ∧
      ((layout.cell cell.left).color = .red ∨ (layout.cell cell.right).color = .red) then
    some (.redChild key)
  else none

def join (cell : Cell) (left right : Nat × Nat) : Except Defect (Nat × Nat) :=
  if left.2 ≠ right.2 then .error (.blackHeight cell.record.key left.2 right.2)
  else .ok (left.1 + right.1 + 1, left.2 + if cell.color = .black then 1 else 0)

/-- The check with no result where it would go deeper than `depth` levels. -/
def examine (layout : Layout) (depth slot parent : Nat) (lower upper : Option String) :
    ExceptT Defect Option (Nat × Nat) :=
  if slot = 0 then pure (0, 1)
  else
    let cell := layout.cell slot
    match depth with
    | 0 => ExceptT.mk none
    | depth + 1 =>
      match layout.flaw? slot parent lower upper with
      | some defect => throw defect
      | none => do
        let left ← layout.examine depth cell.left slot lower (some cell.record.key)
        let right ← layout.examine depth cell.right slot (some cell.record.key) upper
        ExceptT.mk (some (join cell left right))

variable {layout : Layout} {depth slot parent : Nat} {lower upper : Option String}

theorem flaw?_eq_none_iff : layout.flaw? slot parent lower upper = none ↔
    (layout.cell slot).parent = parent ∧
      between lower upper (layout.cell slot).record.key = true ∧
      ((layout.cell slot).color = .red → (layout.cell (layout.cell slot).left).color = .black ∧
        (layout.cell (layout.cell slot).right).color = .black) := by
  rw [flaw?]
  split
  · next hparent => exact ⟨nofun, fun h => absurd h.1 hparent⟩
  · next hparent =>
    split
    · next hbetween =>
      refine ⟨nofun, fun h => ?_⟩
      rw [h.2.1] at hbetween
      exact absurd hbetween (by decide)
    · next hbetween =>
      rw [Bool.not_eq_true', Bool.not_eq_false] at hbetween
      split
      · next hred =>
        refine ⟨nofun, fun h => ?_⟩
        obtain ⟨hleft, hright⟩ := h.2.2 hred.1
        rcases hred.2 with hchild | hchild
        · simp [hleft] at hchild
        · simp [hright] at hchild
      · next hred =>
        refine ⟨fun _ => ⟨Decidable.not_not.mp hparent, hbetween, fun hcell => ?_⟩, fun _ => rfl⟩
        exact ⟨Color.eq_black fun hleft => hred ⟨hcell, Or.inl hleft⟩,
          Color.eq_black fun hright => hred ⟨hcell, Or.inr hright⟩⟩

theorem check_zero : layout.check depth 0 parent lower upper = .ok (0, 1) := by
  rw [check.eq_def, if_pos rfl]

/-- One level of the check: the cell, then its subtrees, then both together. -/
theorem check_succ (h : slot ≠ 0) : layout.check (depth + 1) slot parent lower upper =
    match layout.flaw? slot parent lower upper with
    | some defect => .error defect
    | none =>
      (layout.check depth (layout.cell slot).left slot lower
        (some (layout.cell slot).record.key)).bind fun left =>
      (layout.check depth (layout.cell slot).right slot
        (some (layout.cell slot).record.key) upper).bind (join (layout.cell slot) left) := by
  rw [check, if_neg h, flaw?]
  dsimp only
  by_cases hparent : (layout.cell slot).parent ≠ parent
  · rw [if_pos hparent, if_pos hparent]
  · rw [if_neg hparent, if_neg hparent]
    change (if (!between lower upper (layout.cell slot).record.key) = true then _ else _) = _
    by_cases hbetween : (!between lower upper (layout.cell slot).record.key) = true
    · rw [if_pos hbetween, if_pos hbetween]
    · rw [if_neg hbetween, if_neg hbetween]
      split
      · rfl
      · generalize layout.check depth _ _ _ _ = left
        generalize layout.check depth _ _ _ _ = right
        cases left <;> cases right <;> rfl

theorem examine_succ (h : slot ≠ 0) : layout.examine (depth + 1) slot parent lower upper =
    match layout.flaw? slot parent lower upper with
    | some defect => throw defect
    | none =>
      layout.examine depth (layout.cell slot).left slot lower
        (some (layout.cell slot).record.key) >>= fun left =>
      layout.examine depth (layout.cell slot).right slot
        (some (layout.cell slot).record.key) upper >>= fun right =>
      ExceptT.mk (some (join (layout.cell slot) left right)) := by
  rw [examine, if_neg h]

theorem examine_of_subtrees (h : slot ≠ 0) (hflaw : layout.flaw? slot parent lower upper = none)
    (hleft : layout.examine depth (layout.cell slot).left slot lower
        (some (layout.cell slot).record.key) =
      ExceptT.mk (some (layout.check depth (layout.cell slot).left slot lower
        (some (layout.cell slot).record.key))))
    (hright : layout.examine depth (layout.cell slot).right slot
        (some (layout.cell slot).record.key) upper =
      ExceptT.mk (some (layout.check depth (layout.cell slot).right slot
        (some (layout.cell slot).record.key) upper))) :
    layout.examine (depth + 1) slot parent lower upper =
      ExceptT.mk (some (layout.check (depth + 1) slot parent lower upper)) := by
  rw [examine_succ h, check_succ h, hflaw, hleft, hright]
  dsimp only
  generalize layout.check depth _ _ _ _ = left
  generalize layout.check depth _ _ _ _ = right
  cases left <;> cases right <;> rfl

/-- The cells on the way down to a call of the check. They differ, and none has its key between the
bounds that it has helped to set. -/
structure Passed (layout : Layout) (above : List Nat) (lower upper : Option String) : Prop where
  nodup : (0 :: above).Nodup
  slot_lt : ∀ a ∈ above, a < layout.cells.size
  outside : ∀ a ∈ above, between lower upper (layout.cell a).record.key = false

theorem Passed.cons {above : List Nat} {low high : Option String}
    (h : layout.Passed above lower upper) (hzero : slot ≠ 0) (hslot : slot < layout.cells.size)
    (hbetween : between lower upper (layout.cell slot).record.key = true)
    (hnarrow : ∀ key, between low high key = true →
      between lower upper key = true ∧ key ≠ (layout.cell slot).record.key) :
    layout.Passed (slot :: above) low high := by
  have hfresh : slot ∉ 0 :: above := by
    intro hmem
    rcases List.mem_cons.mp hmem with hmem | hmem
    · exact hzero hmem
    · rw [h.outside slot hmem] at hbetween
      cases hbetween
  refine ⟨?_, fun a ha => ?_, fun a ha => ?_⟩
  · rw [(List.Perm.swap slot 0 above).nodup_iff]
    exact List.nodup_cons.mpr ⟨hfresh, h.nodup⟩
  · rcases List.mem_cons.mp ha with rfl | ha
    · exact hslot
    · exact h.slot_lt a ha
  · rw [← Bool.not_eq_true]
    intro hkey
    obtain ⟨hwide, hne⟩ := hnarrow _ hkey
    rcases List.mem_cons.mp ha with rfl | ha
    · exact hne rfl
    · rw [h.outside a ha] at hwide
      cases hwide

theorem Passed.length_lt {above : List Nat} (h : layout.Passed above lower upper)
    (hsize : 0 < layout.cells.size) : above.length < layout.cells.size := by
  have hsubset : 0 :: above ⊆ List.range layout.cells.size := by
    intro a ha
    rw [List.mem_range]
    rcases List.mem_cons.mp ha with rfl | ha
    · exact hsize
    · exact h.slot_lt a ha
  have hlength := h.nodup.length_le_of_subset hsubset
  rwa [List.length_cons, List.length_range] at hlength

theorem examine_eq_check (hclosed : layout.Closed) {above : List Nat}
    (hslot : slot < layout.cells.size) (habove : layout.Passed above lower upper)
    (hdepth : layout.cells.size ≤ depth + above.length) :
    layout.examine depth slot parent lower upper =
      ExceptT.mk (some (layout.check depth slot parent lower upper)) := by
  induction depth generalizing slot parent lower upper above with
  | zero =>
    -- all cells but the sentinel would be above
    have hlength := habove.length_lt (Nat.zero_lt_of_lt hslot)
    omega
  | succ depth ih =>
    by_cases hzero : slot = 0
    · subst hzero
      rw [check_zero]
      rfl
    · cases hflaw : layout.flaw? slot parent lower upper with
      | some defect =>
        rw [examine_succ hzero, check_succ hzero, hflaw]
        rfl
      | none =>
        obtain ⟨-, hbetween, -⟩ := flaw?_eq_none_iff.mp hflaw
        -- one level less is left, and one cell more is above, for each child with its own bounds
        have hlevel : layout.cells.size ≤ depth + (slot :: above).length := by
          rw [List.length_cons]
          omega
        have hleft := habove.cons hzero hslot hbetween fun key hkey =>
          (between_of_left hbetween hkey).imp_right String.ne_of_lt
        have hright := habove.cons hzero hslot hbetween fun key hkey =>
          (between_of_right hbetween hkey).imp_right fun hlt => (String.ne_of_lt hlt).symm
        exact examine_of_subtrees hzero hflaw (ih (hclosed.left_lt slot hslot) hleft hlevel)
          (ih (hclosed.right_lt slot hslot) hright hlevel)

theorem exists_of_bind {α β : Type} {x : Except Defect α} {f : α → Except Defect β} {b : β}
    (h : x.bind f = .ok b) : ∃ a, x = .ok a ∧ f a = .ok b := by
  cases x with
  | error defect => cases h
  | ok a => exact ⟨a, rfl, h⟩

/-- What the check of a cell has found when it accepts the cell. -/
theorem subtrees_of_check {nodes height : Nat} (h : slot ≠ 0)
    (hcheck : layout.check (depth + 1) slot parent lower upper = .ok (nodes, height)) :
    layout.flaw? slot parent lower upper = none ∧
      ∃ leftNodes rightNodes common,
        layout.check depth (layout.cell slot).left slot lower
          (some (layout.cell slot).record.key) = .ok (leftNodes, common) ∧
        layout.check depth (layout.cell slot).right slot
          (some (layout.cell slot).record.key) upper = .ok (rightNodes, common) ∧
        nodes = leftNodes + rightNodes + 1 ∧
        height = common + if (layout.cell slot).color = .black then 1 else 0 := by
  rw [check_succ h] at hcheck
  cases hflaw : layout.flaw? slot parent lower upper with
  | some defect =>
    rw [hflaw] at hcheck
    cases hcheck
  | none =>
    rw [hflaw] at hcheck
    obtain ⟨⟨leftNodes, common⟩, hleft, hcheck⟩ := exists_of_bind hcheck
    obtain ⟨⟨rightNodes, other⟩, hright, hjoin⟩ := exists_of_bind hcheck
    rw [join] at hjoin
    split at hjoin
    · cases hjoin
    · next hne =>
      obtain rfl : common = other := Decidable.not_not.mp hne
      obtain ⟨rfl, rfl⟩ := Prod.mk.inj (Except.ok.inj hjoin)
      exact ⟨rfl, leftNodes, rightNodes, common, hleft, hright, rfl, rfl⟩

/-- What the check accepts unfolds into a tree. -/
theorem exists_tree_of_check (hsentinel : (layout.cell 0).color = .black) (hclosed : layout.Closed)
    {nodes height : Nat} (hslot : slot < layout.cells.size)
    (h : layout.check depth slot parent lower upper = .ok (nodes, height)) :
    ∃ t n, t.rootSlot = slot ∧ layout.Holds parent t ∧ t.Ordered ∧
      (∀ e ∈ t.entries, between lower upper e.key = true) ∧ t.Balanced n ∧
      nodes = t.size ∧ height = n + 1 := by
  induction depth generalizing slot parent lower upper nodes height with
  | zero =>
    rw [check.eq_def] at h
    split at h
    · next hzero =>
      obtain ⟨rfl, rfl⟩ := Prod.mk.inj (Except.ok.inj h)
      exact ⟨.leaf, 0, hzero.symm, trivial, List.Pairwise.nil, List.forall_mem_nil _, .leaf, rfl, rfl⟩
    · cases h
  | succ depth ih =>
    by_cases hzero : slot = 0
    · subst hzero
      rw [check_zero] at h
      obtain ⟨rfl, rfl⟩ := Prod.mk.inj (Except.ok.inj h)
      exact ⟨.leaf, 0, rfl, trivial, List.Pairwise.nil, List.forall_mem_nil _, .leaf, rfl, rfl⟩
    · obtain ⟨hflaw, leftNodes, rightNodes, common, hleft, hright, rfl, rfl⟩ :=
        subtrees_of_check hzero h
      obtain ⟨hparent, hbetween, hreds⟩ := flaw?_eq_none_iff.mp hflaw
      obtain ⟨l, m, hlroot, hl, ol, hlkeys, bl, rfl, rfl⟩ := ih (hclosed.left_lt slot hslot) hleft
      obtain ⟨r, m', hrroot, hr, or, hrkeys, br, rfl, hm⟩ := ih (hclosed.right_lt slot hslot) hright
      obtain rfl : m = m' := Nat.succ.inj hm
      rw [← hlroot, ← hrroot, color_rootSlot hsentinel hl, color_rootSlot hsentinel hr] at hreds
      have hleftKeys (x) (hx : x ∈ l.entries) := between_of_left hbetween (hlkeys x hx)
      have hrightKeys (x) (hx : x ∈ r.entries) := between_of_right hbetween (hrkeys x hx)
      have hcell : layout.cell slot = ⟨(layout.cell slot).record, (layout.cell slot).color, parent,
          l.rootSlot, r.rootSlot⟩ := by rw [hlroot, hrroot, ← hparent]
      refine ⟨.node (layout.cell slot).color ⟨slot, (layout.cell slot).record⟩ l r, _, rfl,
        ⟨hzero, hslot, hcell, hl, hr⟩, ?_, ?_, bl.node br hreds, ?_, Nat.add_right_comm _ _ _⟩
      · exact Tree.ordered_node.mpr ⟨ol, or, fun x hx => (hleftKeys x hx).2,
          fun x hx => (hrightKeys x hx).2⟩
      · intro x hx
        rcases List.mem_append.mp hx with hx | hx
        · exact (hleftKeys x hx).1
        · rcases List.mem_cons.mp hx with rfl | hx
          · exact hbetween
          · exact (hrightKeys x hx).1
      · rw [Tree.size_node]
        omega

/-- No cell stands for two nodes, since their keys differ. -/
theorem slots_nodup_of_ordered {t : Tree} (h : layout.Holds parent t) (hordered : t.Ordered) :
    t.slots.Nodup := by
  rw [Tree.slots, List.Nodup, List.pairwise_map]
  apply hordered.imp_of_mem
  intro a b ha hb hlt hslot
  have hrecord := (cell_of_mem h ha).2.2
  rw [hslot, (cell_of_mem h hb).2.2] at hrecord
  exact String.ne_of_lt hlt (congrArg Record.key hrecord).symm

theorem size_le_of_holds {t : Tree} (h : layout.Holds parent t) (hnodup : t.slots.Nodup) :
    t.size ≤ layout.cells.size := by
  have hsubset : t.slots ⊆ List.range layout.cells.size := by
    intro slot hslot
    obtain ⟨e, he, rfl⟩ := List.mem_map.mp hslot
    exact List.mem_range.mpr (cell_of_mem h he).2.1
  have hlength := hnodup.length_le_of_subset hsubset
  rwa [List.length_range, Tree.slots, List.length_map] at hlength

/-- A table holds a red-black tree of some black height, leaves counted. -/
structure Represents (layout : Layout) (t : Tree) (height : Nat) : Prop where
  root_eq : layout.root = t.rootSlot
  holds : layout.Holds 0 t
  slots_nodup : t.slots.Nodup
  ordered : t.Ordered
  sentinel_black : (layout.cell 0).color = .black
  root_black : (layout.cell layout.root).color = .black
  reds_apart : t.RedsApart
  size_eq : t.size = layout.count
  blacks_eq : ∀ path, Cursor.rebuild .leaf path = t → blacks path + 1 = height

theorem Represents.validate_eq {t : Tree} {height : Nat} (h : layout.Represents t height) :
    layout.validate = .ok height := by
  obtain ⟨path, hpath⟩ := t.exists_path
  obtain ⟨n, rfl⟩ : ∃ n, height = n + 1 := ⟨blacks path, (h.blacks_eq path hpath).symm⟩
  have hbalanced : t.Balanced n :=
    Tree.balanced_of_paths h.reds_apart fun p hp => Nat.succ.inj (h.blacks_eq p hp)
  have hblack : t.color = .black := by
    rw [← color_rootSlot h.sentinel_black h.holds, ← h.root_eq]
    exact h.root_black
  exact validate_eq_ok h.root_eq h.size_eq.symm (size_le_of_holds h.holds h.slots_nodup)
    h.sentinel_black h.holds hblack hbalanced h.ordered

theorem exists_represents (hclosed : layout.Closed) {height : Nat}
    (h : layout.validate = .ok height) : ∃ t, layout.Represents t height := by
  rw [validate] at h
  split at h
  · cases h
  · next hsentinel =>
    split at h
    · cases h
    · next hroot =>
      obtain ⟨⟨nodes, black⟩, hcheck, hresult⟩ := exists_of_bind h
      dsimp only at hresult
      split at hresult
      · cases hresult
      · next hcount =>
        obtain rfl : black = height := Except.ok.inj hresult
        obtain ⟨t, n, hslot, hholds, hordered, -, hbalanced, rfl, rfl⟩ :=
          exists_tree_of_check (Decidable.not_not.mp hsentinel) hclosed hclosed.root_lt hcheck
        refine ⟨t, hslot.symm, hholds, slots_nodup_of_ordered hholds hordered, hordered,
          Decidable.not_not.mp hsentinel, Decidable.not_not.mp hroot, hbalanced.redsApart,
          Decidable.not_not.mp hcount, ?_⟩
        intro path hpath
        rw [hbalanced.blacks_eq hpath]

/-- Validation of a table, whatever is in its cells, ends and goes no deeper than there are cells. It
accepts the table with a black height just when the table holds a red-black tree of that black
height, and otherwise names a defect. -/
theorem validate_decides (hclosed : layout.Closed) :
    layout.examine layout.cells.size layout.root 0 none none =
        ExceptT.mk (some (layout.check layout.cells.size layout.root 0 none none)) ∧
      (∀ height, layout.validate = .ok height ↔ ∃ t, layout.Represents t height) ∧
      ((∃ defect, layout.validate = .error defect) ↔
        ∀ t height, ¬ layout.Represents t height) := by
  have haccepts (height : Nat) :
      layout.validate = .ok height ↔ ∃ t, layout.Represents t height :=
    ⟨exists_represents hclosed, fun ⟨_, h⟩ => h.validate_eq⟩
  refine ⟨?_, haccepts, ?_, ?_⟩
  · have hpassed : layout.Passed [] none none := ⟨List.pairwise_singleton _ 0, nofun, nofun⟩
    exact examine_eq_check hclosed hclosed.root_lt hpassed (Nat.le_refl _)
  · rintro ⟨defect, hdefect⟩ t height h
    rw [h.validate_eq] at hdefect
    cases hdefect
  · intro hnone
    cases hvalidate : layout.validate with
    | error defect => exact ⟨defect, rfl⟩
    | ok height =>
      obtain ⟨t, ht⟩ := exists_represents hclosed hvalidate
      exact absurd ht (hnone t height)

/-- A table in which both links of the root lead to one cell. -/
def twice : Layout where
  cells := #[Cell.sentinel, ⟨⟨"b", ""⟩, .black, 0, 2, 2⟩, ⟨⟨"a", ""⟩, .black, 1, 0, 0⟩]
  root := 1
  count := 3

/-- The cell that both links lead to is in order on the left, but not on the right. -/
theorem twice_represents_nothing : twice.Closed ∧ twice.validate = .error (.outOfOrder "a") ∧
    ∀ t height, ¬ twice.Represents t height := by
  have hclosed : twice.Closed := ⟨by decide, by decide, by decide⟩
  have hvalidate : twice.validate = .error (.outOfOrder "a") := by cbv
  exact ⟨hclosed, hvalidate, (validate_decides hclosed).2.2.mp ⟨_, hvalidate⟩⟩

end Layout

end TriStore.RedBlack
