import TriStore.Proofs.Laws
import TriStore.SlotTable

/-!
# Slots keep the laws of tables

Each call changes one slot at most, so the records of the other slots stay what they are. The
invariant is that no key occurs in two slots and that the count is the number of slots in use.
-/

namespace TriStore

namespace SlotTable

structure WellFormed (t : SlotTable) : Prop where
  distinct : DistinctKeys t.toList
  count_eq : t.count = t.toList.length

theorem toList_empty (capacity : Nat) : (empty capacity).toList = [] := by
  rw [toList, List.filterMap_eq_nil_iff]
  intro slot hslot
  rw [empty, Array.toList_replicate] at hslot
  exact List.eq_of_mem_replicate hslot

theorem empty_wellFormed (capacity : Nat) : (empty capacity).WellFormed where
  distinct := by
    rw [toList_empty]
    exact List.nodup_nil
  count_eq := by
    rw [toList_empty]
    rfl

theorem capacity_empty (capacity : Nat) : (empty capacity).capacity = capacity :=
  Array.size_replicate

theorem bounded_empty (capacity : Nat) : Table.bounded (empty capacity) = .empty capacity := by
  have hcapacity : Table.capacity (empty capacity) = capacity := capacity_empty capacity
  have htoList : Table.toList (empty capacity) = [] := toList_empty capacity
  rw [Table.bounded, hcapacity, htoList]
  rfl

variable {t : SlotTable} {key : String} {i : Nat} {r : Record}

theorem mem_toList_iff : r ∈ t.toList ↔ some r ∈ t.slots := by
  rw [toList, List.mem_filterMap]
  constructor
  · rintro ⟨slot, hslot, rfl⟩
    exact Array.mem_toList_iff.mp hslot
  · intro hslot
    exact ⟨some r, Array.mem_toList_iff.mpr hslot, rfl⟩

theorem length_toList_le (t : SlotTable) : t.toList.length ≤ t.capacity :=
  List.length_filterMap_le _ _

theorem holds_iff {slot : Option Record} :
    holds key slot = true ↔ ∃ r, slot = some r ∧ r.key = key := by
  cases slot with
  | none => simp [holds]
  | some r => simp [holds]

theorem filterMap_middle (before after : List (Option Record)) (slot : Option Record) :
    (before ++ slot :: after).filterMap id =
      before.filterMap id ++ (slot.toList ++ after.filterMap id) := by
  rw [List.filterMap_append]
  cases slot <;> rfl

theorem exists_around {slot : Option Record} (h : t.slots[i]? = some slot) :
    ∃ before after : List Record, t.toList = before ++ (slot.toList ++ after) ∧
      ∀ slot' count, toList ⟨t.slots.setIfInBounds i slot', count⟩ =
        before ++ (slot'.toList ++ after) := by
  rw [← Array.getElem?_toList] at h
  obtain ⟨hi, rfl⟩ := List.getElem?_eq_some_iff.mp h
  have hset (slot' : Option Record) : t.slots.toList.set i slot' =
      t.slots.toList.take i ++ slot' :: t.slots.toList.drop (i + 1) := by
    rw [List.set_eq_take_append_cons_drop, if_pos hi]
  refine ⟨(t.slots.toList.take i).filterMap id, (t.slots.toList.drop (i + 1)).filterMap id, ?_,
    fun slot' count => ?_⟩
  · rw [← filterMap_middle, ← hset, List.set_getElem_self, toList]
  · rw [toList, Array.toList_setIfInBounds, hset, filterMap_middle]

theorem exists_rest {slot : Option Record} (h : t.slots[i]? = some slot) (slot' : Option Record)
    (count : Nat) :
    ∃ rest, t.toList.Perm (slot.toList ++ rest) ∧
      (toList ⟨t.slots.setIfInBounds i slot', count⟩).Perm (slot'.toList ++ rest) := by
  obtain ⟨before, after, hold, hnew⟩ := exists_around h
  rw [hold, hnew]
  exact ⟨before ++ after, List.perm_append_comm_assoc _ _ _, List.perm_append_comm_assoc _ _ _⟩

theorem find?_eq_some (h : t.find? key = some (i, r)) :
    t.slots[i]? = some (some r) ∧ r.key = key := by
  rw [find?, Option.bind_eq_bind, Option.bind_eq_some_iff] at h
  obtain ⟨j, hj, h⟩ := h
  obtain ⟨hlt, hholds, -⟩ := Array.findIdx?_eq_some_iff_getElem.mp hj
  obtain ⟨s, hs, hkey⟩ := holds_iff.mp hholds
  have hslot : t.slots[j]? = some (some s) := by
    rw [Array.getElem?_eq_getElem hlt, hs]
  rw [hslot] at h
  cases h
  exact ⟨hslot, hkey⟩

theorem find?_eq_none (h : t.find? key = none) : ¬ Table.Has t key := by
  rintro ⟨r, hr, hkey⟩
  have hslot := mem_toList_iff.mp hr
  have hholds : holds key (some r) = true := holds_iff.mpr ⟨r, rfl, hkey⟩
  cases hj : t.slots.findIdx? (holds key) with
  | none =>
    have hnot := Array.findIdx?_eq_none_iff.mp hj (some r) hslot
    rw [hholds] at hnot
    cases hnot
  | some j =>
    obtain ⟨hlt, hfound, -⟩ := Array.findIdx?_eq_some_iff_getElem.mp hj
    obtain ⟨s, hs, -⟩ := holds_iff.mp hfound
    rw [find?, hj, Option.bind_eq_bind, Option.bind_some, Array.getElem?_eq_getElem hlt, hs] at h
    cases h

theorem any_holds_iff : t.slots.any (holds key) = true ↔ Table.Has t key := by
  rw [Array.any_eq_true']
  constructor
  · rintro ⟨slot, hslot, hholds⟩
    obtain ⟨r, rfl, hkey⟩ := holds_iff.mp hholds
    exact ⟨r, mem_toList_iff.mpr hslot, hkey⟩
  · rintro ⟨r, hr, hkey⟩
    exact ⟨some r, mem_toList_iff.mp hr, holds_iff.mpr ⟨r, rfl, hkey⟩⟩

def Occupied (t : SlotTable) (i : Nat) : Prop := ∃ r, t.slots[i]? = some (some r)

theorem of_findIdx?_isNone (h : t.slots.findIdx? Option.isNone = some i) :
    t.slots[i]? = some none ∧ ∀ j < i, t.Occupied j := by
  obtain ⟨hlt, hfree, hbefore⟩ := Array.findIdx?_eq_some_iff_getElem.mp h
  constructor
  · rw [Array.getElem?_eq_getElem hlt, Option.isNone_iff_eq_none.mp hfree]
  · intro j hj
    have hjlt : j < t.slots.size := Nat.lt_trans hj hlt
    obtain ⟨r, hr⟩ := Option.ne_none_iff_exists'.mp fun hnone =>
      hbefore j hj (Option.isNone_iff_eq_none.mpr hnone)
    exact ⟨r, (Array.getElem?_eq_getElem hjlt).trans (congrArg some hr)⟩

theorem length_toList_of_full (h : t.slots.findIdx? Option.isNone = none) :
    t.toList.length = t.capacity := by
  rw [toList, List.length_filterMap_eq_countP, capacity, ← Array.length_toList,
    List.countP_eq_length]
  intro slot hslot
  have hsome := Array.findIdx?_eq_none_iff.mp h slot (Array.mem_toList_iff.mp hslot)
  cases slot with
  | none => cases hsome
  | some r => rfl

theorem get?_eq_some_iff (h : t.WellFormed) (key value : String) :
    t.get? key = some value ↔ ⟨key, value⟩ ∈ t.toList := by
  have hget : t.get? key = ((t.find? key).map (·.2)).map (·.value) := by
    rw [Option.map_map]
    rfl
  rw [hget]
  refine Contents.value_eq_some_iff h.distinct ?_ ?_ value
  · intro r hr
    obtain ⟨⟨i, s⟩, hfind, rfl⟩ := Option.map_eq_some_iff.mp hr
    obtain ⟨hslot, hkey⟩ := find?_eq_some hfind
    exact ⟨mem_toList_iff.mpr (Array.mem_of_getElem? hslot), hkey⟩
  · intro hnone
    exact find?_eq_none (Option.map_eq_none_iff.mp hnone)

theorem insert_outcome (h : t.WellFormed) (key value : String) :
    Table.Inserts WellFormed t key value (t.insert key value) := by
  rw [insert]
  split
  · next hany => exact .present (any_holds_iff.mp hany)
  · next hany =>
    have hnew : ¬ Table.Has t key := mt any_holds_iff.mpr hany
    split
    · next i hi =>
      obtain ⟨hslot, -⟩ := of_findIdx?_isNone hi
      obtain ⟨rest, hp, hp'⟩ := exists_rest hslot (some ⟨key, value⟩) (t.count + 1)
      have hperm := hp'.trans (hp.symm.cons _)
      have hdistinct := h.distinct.inserted (r := ⟨key, value⟩) hnew hperm
      have hcount := congrArg (· + 1) h.count_eq
      have hlength := length_toList_le ⟨t.slots.setIfInBounds i (some ⟨key, value⟩), t.count + 1⟩
      rw [hperm.length_eq, capacity, Array.size_setIfInBounds] at hlength
      rw [List.length_cons, ← h.count_eq] at hlength
      exact .done hnew hlength ⟨hdistinct, hcount.trans hperm.length_eq.symm⟩
        Array.size_setIfInBounds hperm
    · next hfull =>
      have hlength : t.count = t.capacity := h.count_eq.trans (length_toList_of_full hfull)
      exact .full hnew (Nat.le_of_eq hlength.symm)

theorem replace_outcome (h : t.WellFormed) (key value : String) :
    Table.Replaces WellFormed t key value (t.replace key value) := by
  rw [replace]
  cases hfind : t.find? key with
  | none => exact .absent (find?_eq_none hfind)
  | some found =>
    obtain ⟨i, r⟩ := found
    obtain ⟨hslot, rfl⟩ := find?_eq_some hfind
    obtain ⟨rest, hp, hp'⟩ := exists_rest hslot (some { r with value }) t.count
    have hcount := h.count_eq.trans (hp.length_eq.trans hp'.length_eq.symm)
    exact .done ⟨h.distinct.replaced hp hp', hcount⟩ Array.size_setIfInBounds hp hp'

theorem erase_outcome (h : t.WellFormed) (key : String) :
    Table.Erases WellFormed t key (t.erase key) := by
  rw [erase]
  cases hfind : t.find? key with
  | none => exact .absent (find?_eq_none hfind)
  | some found =>
    obtain ⟨i, r⟩ := found
    obtain ⟨hslot, rfl⟩ := find?_eq_some hfind
    obtain ⟨rest, hp, hp'⟩ := exists_rest hslot none (t.count - 1)
    have hperm := hp.trans (hp'.symm.cons r)
    have hcount := congrArg (· - 1) (h.count_eq.trans hperm.length_eq)
    exact .done ⟨h.distinct.erased hperm, hcount⟩ Array.size_setIfInBounds hperm

theorem insert_eq_ok {value : String} {t' : SlotTable} (h : t.insert key value = .ok t') :
    ∃ i, t.slots[i]? = some none ∧ (∀ j < i, t.Occupied j) ∧
      t' = ⟨t.slots.setIfInBounds i (some ⟨key, value⟩), t.count + 1⟩ := by
  unfold insert at h
  split at h
  · cases h
  · split at h
    · next i hi =>
      cases h
      obtain ⟨hfree, hbefore⟩ := of_findIdx?_isNone hi
      exact ⟨i, hfree, hbefore, rfl⟩
    · cases h

theorem replace_eq_ok {value old : String} {t' : SlotTable}
    (h : t.replace key value = .ok (old, t')) :
    ∃ i, t.slots[i]? = some (some ⟨key, old⟩) ∧
      t' = ⟨t.slots.setIfInBounds i (some ⟨key, value⟩), t.count⟩ := by
  unfold replace at h
  split at h
  · next i r hfind =>
    cases h
    obtain ⟨hslot, rfl⟩ := find?_eq_some hfind
    exact ⟨i, hslot, rfl⟩
  · cases h

theorem erase_eq_ok {old : String} {t' : SlotTable} (h : t.erase key = .ok (old, t')) :
    ∃ i, t.slots[i]? = some (some ⟨key, old⟩) ∧
      t' = ⟨t.slots.setIfInBounds i none, t.count - 1⟩ := by
  unfold erase at h
  split at h
  · next i r hfind =>
    cases h
    obtain ⟨hslot, rfl⟩ := find?_eq_some hfind
    exact ⟨i, hslot, rfl⟩
  · cases h

inductive Steps (t : SlotTable) : Call → SlotTable → Prop where
  | kept {call : Call} : call ≠ .clear → Steps t call t
  | filled {i : Nat} {key value : String} : t.slots[i]? = some none → (∀ j < i, t.Occupied j) →
      Steps t (.insert key value) ⟨t.slots.setIfInBounds i (some ⟨key, value⟩), t.count + 1⟩
  | exchanged {i : Nat} {key old value : String} : t.slots[i]? = some (some ⟨key, old⟩) →
      Steps t (.replace key value) ⟨t.slots.setIfInBounds i (some ⟨key, value⟩), t.count⟩
  | freed {i : Nat} {key old : String} : t.slots[i]? = some (some ⟨key, old⟩) →
      Steps t (.erase key) ⟨t.slots.setIfInBounds i none, t.count - 1⟩
  | cleared : Steps t .clear t.clear

theorem perform_steps (t : SlotTable) (call : Call) : Steps t call (Table.perform t call).2 := by
  cases call with
  | insert key value =>
    rw [Table.perform]
    cases hinsert : Table.insert t key value with
    | error cause => exact .kept (by simp)
    | ok t' =>
      obtain ⟨i, hslot, hbefore, rfl⟩ := insert_eq_ok hinsert
      exact .filled hslot hbefore
  | replace key value =>
    rw [Table.perform]
    cases hreplace : Table.replace t key value with
    | error cause => exact .kept (by simp)
    | ok found =>
      obtain ⟨old, t'⟩ := found
      obtain ⟨i, hslot, rfl⟩ := replace_eq_ok hreplace
      exact .exchanged hslot
  | erase key =>
    rw [Table.perform]
    cases herase : Table.erase t key with
    | error cause => exact .kept (by simp)
    | ok found =>
      obtain ⟨old, t'⟩ := found
      obtain ⟨i, hslot, rfl⟩ := erase_eq_ok herase
      exact .freed hslot
  | get key => exact .kept (by simp)
  | contains key => exact .kept (by simp)
  | clear => exact .cleared

/-- No call changes the order of the keys that it leaves in the table. -/
theorem nested_perform (t : SlotTable) (call : Call) :
    Nested (Table.toList t) (Table.toList (Table.perform t call).2) := by
  have hsteps := perform_steps t call
  generalize (Table.perform t call).2 = t' at hsteps
  change Nested t.toList t'.toList
  cases hsteps with
  | kept hcall => exact Or.inl (List.Sublist.refl _)
  | cleared => exact Or.inr (toList_empty t.capacity ▸ List.nil_sublist _)
  | filled hslot hbefore =>
    obtain ⟨before, after, hold, hnew⟩ := exists_around hslot
    rw [hnew, hold, Nested]
    simp only [List.map_append, List.append_sublist_append_left]
    exact Or.inl (List.sublist_append_right _ _)
  | exchanged hslot =>
    obtain ⟨before, after, hold, hnew⟩ := exists_around hslot
    rw [hnew, hold, Nested]
    simp only [List.map_append]
    exact Or.inl (List.Sublist.refl _)
  | freed hslot =>
    obtain ⟨before, after, hold, hnew⟩ := exists_around hslot
    rw [hnew, hold, Nested]
    simp only [List.map_append, List.append_sublist_append_left]
    exact Or.inr (List.sublist_append_right _ _)

instance : LawfulTable SlotTable where
  Sound := WellFormed
  distinct h := h.distinct
  size_eq h := h.count_eq
  size_le {t} h := by
    change t.count ≤ t.capacity
    rw [h.count_eq]
    exact length_toList_le t
  get?_eq_some_iff := get?_eq_some_iff
  inserts := insert_outcome
  replaces := replace_outcome
  erases := erase_outcome
  clear_sound _ := empty_wellFormed _
  capacity_clear t := capacity_empty t.capacity
  toList_clear t := toList_empty t.capacity

end SlotTable

end TriStore
