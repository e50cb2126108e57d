import TriStore.RedBlack.Walk
import TriStore.Proofs.RedBlack.Height
import TriStore.Proofs.RedBlack.Search

/-!
# Walks through a table that holds a tree

The cells above a place hold the frames of its path, so the links that a walk follows are moves in the
tree, and the height of the tree bounds their number. The next node after a place is the first entry
below it on the right or, where there is none, the first entry after its path. So a walk that starts
at some entry lists the entries from there on and ends after the last one.
-/

namespace TriStore.RedBlack

def firstSlot (entries : List Entry) : Nat := (entries.head?.map (·.slot)).getD 0

def slotAbove (path : List Frame) : Nat := (path.head?.map (·.entry.slot)).getD 0

theorem firstSlot_append {xs : List Entry} (h : xs ≠ []) (ys : List Entry) :
    firstSlot (xs ++ ys) = firstSlot xs := by
  cases xs with
  | nil => exact absurd rfl h
  | cons x xs => rfl

namespace Tree

theorem entries_ne_nil {t : Tree} (h : t.rootSlot ≠ 0) : t.entries ≠ [] := by
  cases t with
  | leaf => exact absurd rfl h
  | node c e l r => simp [entries]

theorem slots_nodup_of_rebuild {t : Tree} {path : List Frame}
    (h : (Cursor.rebuild t path).slots.Nodup) : t.slots.Nodup := by
  rw [slots, Cursor.entries_rebuild] at h
  refine h.sublist (List.Sublist.map _ ?_)
  exact (List.sublist_append_right _ _).trans (List.sublist_append_left _ _)

theorem rootSlot_left_ne_right {c : Color} {e : Entry} {l r : Tree}
    (h : (node c e l r).slots.Nodup) (hl : l.rootSlot ≠ 0) : l.rootSlot ≠ r.rootSlot := by
  intro heq
  rw [slots_node] at h
  have hleft : l.rootSlot ∈ l.slots := rootSlot_mem_slots hl
  have hright : l.rootSlot ∈ r.slots := by
    rw [heq] at hl ⊢
    exact rootSlot_mem_slots hl
  exact (List.nodup_append.mp h).2.2 _ hleft _ (List.mem_cons_of_mem _ hright) rfl

/-- Wherever the entries are divided, the tree can be cut at the entry that follows. -/
theorem exists_place {before after : List Entry} {e : Entry} {t : Tree} (path : List Frame)
    (h : t.entries = before ++ e :: after) :
    ∃ c l r path', Cursor.rebuild (.node c e l r) path' = Cursor.rebuild t path ∧
      r.entries ++ Cursor.after path' = after ++ Cursor.after path := by
  induction t generalizing before after path with
  | leaf => simp [entries] at h
  | node c e₀ l r ihl ihr =>
    rw [entries, List.append_eq_append_iff] at h
    rcases h with ⟨between, hbefore, hafter⟩ | ⟨between, hbefore, hafter⟩
    · cases between with
      | nil =>
        obtain ⟨rfl, rfl⟩ : e₀ = e ∧ r.entries = after := List.cons.inj hafter
        exact ⟨c, l, r, path, rfl, rfl⟩
      | cons x between =>
        obtain ⟨rfl, hr⟩ : e₀ = x ∧ r.entries = between ++ e :: after := List.cons.inj hafter
        obtain ⟨c', l', r', path', htree, hlist⟩ := ihr (⟨.right, c, e₀, l⟩ :: path) hr
        exact ⟨c', l', r', path', htree, hlist⟩
    · cases between with
      | nil =>
        obtain ⟨rfl, rfl⟩ : e = e₀ ∧ after = r.entries := List.cons.inj hafter
        exact ⟨c, l, r, path, rfl, rfl⟩
      | cons x between =>
        obtain ⟨rfl, rfl⟩ : e = x ∧ after = between ++ e₀ :: r.entries := List.cons.inj hafter
        obtain ⟨c', l', r', path', htree, hlist⟩ := ihl (⟨.left, c, e₀, r⟩ :: path) hbefore
        refine ⟨c', l', r', path', htree, hlist.trans ?_⟩
        rw [Cursor.after, Frame.after, List.append_assoc]

theorem exists_before_filter {t : Tree} (h : t.Ordered) (bound : Bound) :
    ∃ before, t.entries = before ++ t.entries.filter (bound.admits ·.key) := by
  rw [Ordered] at h
  generalize t.entries = entries at h
  induction entries with
  | nil => exact ⟨[], rfl⟩
  | cons e entries ih =>
    obtain ⟨hlt, hrest⟩ := List.pairwise_cons.mp h
    rw [List.filter_cons]
    by_cases hadmits : bound.admits e.key = true
    · have hall : entries.filter (bound.admits ·.key) = entries :=
        List.filter_eq_self.mpr fun x hx => Bound.admits_of_lt hadmits (hlt x hx)
      rw [if_pos hadmits, hall]
      exact ⟨[], rfl⟩
    · obtain ⟨before, hbefore⟩ := ih hrest
      rw [if_neg hadmits]
      exact ⟨e :: before, congrArg (e :: ·) hbefore⟩

end Tree

namespace Layout
variable {layout : Layout} {t : Tree} {path : List Frame} {parent steps slot : Nat}

theorem find_succ (key : String) (h : slot ≠ 0) : layout.find key (steps + 1) slot =
    if key < (layout.cell slot).record.key then layout.find key steps (layout.cell slot).left
    else if (layout.cell slot).record.key < key then layout.find key steps (layout.cell slot).right
    else some slot := by
  rw [find, if_neg h]

theorem lowerBound_succ (bound : Bound) (candidate : Nat) (h : slot ≠ 0) :
    layout.lowerBound bound (steps + 1) candidate slot =
      if bound.admits (layout.cell slot).record.key then
        layout.lowerBound bound steps slot (layout.cell slot).left
      else layout.lowerBound bound steps candidate (layout.cell slot).right := by
  rw [lowerBound, if_neg h]

theorem minimum_succ (h : slot ≠ 0) : layout.minimum (steps + 1) slot =
    if (layout.cell slot).left = 0 then some slot
    else layout.minimum steps (layout.cell slot).left := by
  rw [minimum, if_neg h]

theorem ascend_of_right {above : Nat} (h : above ≠ 0) (hslot : slot = (layout.cell above).right) :
    layout.ascend (steps + 1) slot above =
      layout.ascend steps above (layout.cell above).parent := by
  rw [ascend.eq_def, if_pos ⟨h, hslot⟩]

theorem ascend_of_not_right {above : Nat} (h : above ≠ 0 → slot ≠ (layout.cell above).right) :
    layout.ascend steps slot above = some above := by
  rw [ascend.eq_def, if_neg fun hboth => h hboth.1 hboth.2]

theorem recordsFrom_succ {next : Nat} {rest : List Record} (h : slot ≠ 0)
    (hnext : layout.successor slot = some next) (hrest : layout.recordsFrom steps next = some rest) :
    layout.recordsFrom (steps + 1) slot = some ((layout.cell slot).record :: rest) := by
  rw [recordsFrom.eq_def, if_neg h]
  simp only [hnext, hrest, Option.bind_eq_bind, Option.bind_some]

theorem rootSlot_eq_zero_iff (h : layout.Holds parent t) : t.rootSlot = 0 ↔ t = .leaf := by
  cases t with
  | leaf => exact ⟨fun _ => rfl, fun _ => rfl⟩
  | node c e l r => exact ⟨fun hzero => absurd hzero h.1, nofun⟩

theorem holds_of_rebuild (h : layout.Holds 0 (Cursor.rebuild t path)) :
    layout.Holds (slotAbove path) t := by
  induction path generalizing t with
  | nil => exact h
  | cons f path ih =>
    have hplug : layout.Holds (slotAbove path) (f.plug t) := ih h
    obtain ⟨side, c, e, s⟩ := f
    cases side with
    | left => exact hplug.2.2.2.1
    | right => exact hplug.2.2.2.2

theorem find_eq (key : String) (h : layout.Holds parent t) (hsteps : t.height ≤ steps) :
    layout.find key steps t.rootSlot = some (((t.find? key).map (·.slot)).getD 0) := by
  induction t generalizing parent steps with
  | leaf =>
    rw [find]
    rfl
  | node c e l r ihl ihr =>
    obtain ⟨hzero, -, hcell, hl, hr⟩ := h
    rw [Tree.height] at hsteps
    obtain ⟨steps, rfl⟩ : ∃ n, steps = n + 1 := ⟨steps - 1, by omega⟩
    rw [Tree.rootSlot, find_succ key hzero, hcell, Tree.find?]
    dsimp only
    split
    · exact ihl hl (by omega)
    · split
      · exact ihr hr (by omega)
      · rfl

/-- The descent for a bound ends at the first entry that the bound admits. -/
theorem lowerBound_eq (bound : Bound) (candidate : Nat) (h : layout.Holds parent t)
    (hordered : t.Ordered) (hsteps : t.height ≤ steps) :
    layout.lowerBound bound steps candidate t.rootSlot =
      some (((t.entries.find? (bound.admits ·.key)).map (·.slot)).getD candidate) := by
  induction t generalizing parent steps candidate with
  | leaf =>
    rw [lowerBound]
    rfl
  | node c e l r ihl ihr =>
    obtain ⟨hzero, -, hcell, hl, hr⟩ := h
    obtain ⟨ol, or, hle, -⟩ := Tree.ordered_node.mp hordered
    rw [Tree.height] at hsteps
    obtain ⟨steps, rfl⟩ : ∃ n, steps = n + 1 := ⟨steps - 1, by omega⟩
    rw [Tree.rootSlot, lowerBound_succ bound candidate hzero, hcell, Tree.entries,
      List.find?_append, List.find?_cons]
    dsimp only
    by_cases hadmits : bound.admits e.key = true
    · rw [if_pos hadmits, ihl e.slot hl ol (by omega), hadmits]
      cases l.entries.find? (bound.admits ·.key) <;> rfl
    · have hleft : l.entries.find? (bound.admits ·.key) = none := by
        apply List.find?_eq_none.mpr
        intro x hx hadmitted
        exact hadmits (Bound.admits_of_lt hadmitted (hle x hx))
      rw [if_neg hadmits, hleft, Bool.eq_false_iff.mpr hadmits]
      exact ihr candidate hr or (by omega)

theorem minimum_eq (h : layout.Holds parent t) (hsteps : t.height ≤ steps) :
    layout.minimum steps t.rootSlot = some (firstSlot t.entries) := by
  induction t generalizing parent steps with
  | leaf =>
    rw [minimum]
    rfl
  | node c e l r ihl _ =>
    obtain ⟨hzero, -, hcell, hl, -⟩ := h
    rw [Tree.height] at hsteps
    obtain ⟨steps, rfl⟩ : ∃ n, steps = n + 1 := ⟨steps - 1, by omega⟩
    rw [Tree.rootSlot, minimum_succ hzero, hcell]
    by_cases hleft : l.rootSlot = 0
    · obtain rfl := (rootSlot_eq_zero_iff hl).mp hleft
      exact if_pos hleft
    · rw [Tree.entries, firstSlot_append (Tree.entries_ne_nil hleft)]
      exact (if_neg hleft).trans (ihl hl (by omega))

/-- The climb from a place ends at the first entry after its path. -/
theorem ascend_eq (h : layout.Holds 0 (Cursor.rebuild t path))
    (hnodup : (Cursor.rebuild t path).slots.Nodup) (ht : t.rootSlot ≠ 0)
    (hsteps : path.length ≤ steps) :
    layout.ascend steps t.rootSlot (slotAbove path) = some (firstSlot (Cursor.after path)) := by
  induction path generalizing t steps with
  | nil =>
    exact ascend_of_not_right fun habove => absurd rfl habove
  | cons f path ih =>
    have hplug : layout.Holds (slotAbove path) (f.plug t) := holds_of_rebuild h
    have hslots : (f.plug t).slots.Nodup := Tree.slots_nodup_of_rebuild hnodup
    rw [List.length_cons] at hsteps
    obtain ⟨steps, rfl⟩ : ∃ n, steps = n + 1 := ⟨steps - 1, by omega⟩
    obtain ⟨side, c, e, s⟩ := f
    have habove : slotAbove (⟨side, c, e, s⟩ :: path) = e.slot := rfl
    rw [habove]
    cases side with
    | left =>
      obtain ⟨-, -, hcell, -, -⟩ := hplug
      apply ascend_of_not_right
      intro _
      rw [hcell]
      exact Tree.rootSlot_left_ne_right hslots ht
    | right =>
      obtain ⟨hzero, -, hcell, -, -⟩ := hplug
      have hslot : t.rootSlot = (layout.cell e.slot).right := by rw [hcell]
      rw [ascend_of_right hzero hslot, hcell]
      exact ih (t := Frame.plug ⟨.right, c, e, s⟩ t) h hnodup hzero (by omega)

section Listing
variable (hholds : layout.Holds 0 t) (hnodup : t.slots.Nodup) (hsize : t.size ≤ layout.cells.size)
include hholds hnodup hsize

theorem successor_eq {before after : List Entry} {e : Entry}
    (hsplit : t.entries = before ++ e :: after) :
    layout.successor e.slot = some (firstSlot after) := by
  obtain ⟨c, l, r, path, htree, hafter⟩ := Tree.exists_place [] hsplit
  rw [Cursor.rebuild] at htree
  rw [Cursor.after, List.append_nil] at hafter
  subst htree
  obtain ⟨hzero, -, hcell, -, hr⟩ := holds_of_rebuild hholds
  have hheight := Tree.length_add_height_le (.node c e l r) path
  have hbound := Tree.height_le_size (Cursor.rebuild (.node c e l r) path)
  rw [Tree.height] at hheight
  rw [successor, hcell, ← hafter]
  by_cases hright : r.rootSlot = 0
  · obtain rfl := (rootSlot_eq_zero_iff hr).mp hright
    exact (if_neg fun hne => hne hright).trans
      (ascend_eq (t := .node c e l .leaf) hholds hnodup hzero (by omega))
  · rw [firstSlot_append (Tree.entries_ne_nil hright)]
    exact (if_pos hright).trans (minimum_eq hr (by omega))

theorem recordsFrom_eq {before after : List Entry} (hsplit : t.entries = before ++ after)
    (hsteps : after.length ≤ steps) :
    layout.recordsFrom steps (firstSlot after) = some (after.map (·.record)) := by
  induction after generalizing before steps with
  | nil =>
    rw [recordsFrom.eq_def]
    exact if_pos rfl
  | cons e after ih =>
    have hmem : e ∈ t.entries := by
      rw [hsplit]
      exact List.mem_append_right _ List.mem_cons_self
    obtain ⟨hzero, -, hrecord⟩ := cell_of_mem hholds hmem
    have hrest : t.entries = (before ++ [e]) ++ after := by
      rw [hsplit, List.append_assoc, List.singleton_append]
    rw [List.length_cons] at hsteps
    obtain ⟨steps, rfl⟩ : ∃ n, steps = n + 1 := ⟨steps - 1, by omega⟩
    have htail : layout.recordsFrom steps (firstSlot after) = some (after.map (·.record)) :=
      ih hrest (by omega)
    have hnext := successor_eq hholds hnodup hsize hsplit
    rw [List.map_cons, ← hrecord]
    exact recordsFrom_succ hzero hnext htail

/-- A walk lists the records that a bound admits, in order. -/
theorem range_eq (hordered : t.Ordered) (hroot : layout.root = t.rootSlot) (bound : Bound) :
    layout.range bound = some (t.toListFrom bound) := by
  have hheight : t.height ≤ layout.cells.size := Nat.le_trans (Tree.height_le_size t) hsize
  have hstart : layout.start bound =
      some (firstSlot (t.entries.filter (bound.admits ·.key))) := by
    have hlower := lowerBound_eq bound 0 hholds hordered hheight
    rw [← List.head?_filter, ← hroot] at hlower
    cases bound with
    | unbounded =>
      have hall : t.entries.filter (Bound.unbounded.admits ·.key) = t.entries :=
        List.filter_eq_self.mpr fun _ _ => rfl
      rw [start, hroot, hall]
      exact minimum_eq hholds hheight
    | included key => exact hlower
    | excluded key => exact hlower
  obtain ⟨before, hbefore⟩ := Tree.exists_before_filter hordered bound
  have hlength : (t.entries.filter (bound.admits ·.key)).length ≤ layout.cells.size :=
    Nat.le_trans (List.length_filter_le _ _) hsize
  rw [range, hstart, Tree.toListFrom_eq_filter hordered, Tree.toList, List.filter_map]
  exact recordsFrom_eq hholds hnodup hsize hbefore hlength

end Listing

end Layout

end TriStore.RedBlack
