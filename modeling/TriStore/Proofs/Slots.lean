import TriStore.Proofs.SlotTable

/-!
# Where the records of a slot table are

A new record goes into the first free slot and stays there until it is taken out, whatever happens to
other keys. So all slots below a record were in use when it came, and its number is below a size that
the table has had.
-/

namespace TriStore

namespace SlotTable

def InSlot (t : SlotTable) (i : Nat) (key : String) : Prop :=
  ∃ value, t.slots[i]? = some (some ⟨key, value⟩)

/-- One slot has got other contents, and all others are as they were. -/
def Reslotted (t t' : SlotTable) (i : Nat) (slot : Option Record) : Prop :=
  ∀ j, t'.slots[j]? = if j = i then some slot else t.slots[j]?

variable {t t' : SlotTable} {key value old : String} {i j : Nat}

theorem Occupied.inSlot (h : t.Occupied i) : ∃ key, t.InSlot i key := by
  obtain ⟨r, hslot⟩ := h
  exact ⟨r.key, r.value, hslot⟩

theorem reslotted_setIfInBounds {slot : Option Record} (h : t.slots[i]? = some slot)
    (slot' : Option Record) (count : Nat) :
    Reslotted t ⟨t.slots.setIfInBounds i slot', count⟩ i slot' := by
  intro j
  obtain ⟨hi, -⟩ := Array.getElem?_eq_some_iff.mp h
  rw [Array.getElem?_setIfInBounds]
  by_cases hj : i = j
  · rw [if_pos hj, if_pos hj.symm, if_pos hi]
  · rw [if_neg hj, if_neg fun heq => hj heq.symm]

theorem reslotted_insert (hinsert : t.insert key value = .ok t') :
    ∃ i, t.slots[i]? = some none ∧ (∀ j < i, t.Occupied j) ∧
      Reslotted t t' i (some ⟨key, value⟩) := by
  obtain ⟨i, hslot, hbefore, rfl⟩ := insert_eq_ok hinsert
  exact ⟨i, hslot, hbefore, reslotted_setIfInBounds hslot _ _⟩

theorem reslotted_replace (hreplace : t.replace key value = .ok (old, t')) :
    ∃ i, t.slots[i]? = some (some ⟨key, old⟩) ∧ Reslotted t t' i (some ⟨key, value⟩) := by
  obtain ⟨i, hslot, rfl⟩ := replace_eq_ok hreplace
  exact ⟨i, hslot, reslotted_setIfInBounds hslot _ _⟩

theorem reslotted_erase (herase : t.erase key = .ok (old, t')) :
    ∃ i, t.slots[i]? = some (some ⟨key, old⟩) ∧ Reslotted t t' i none := by
  obtain ⟨i, hslot, rfl⟩ := erase_eq_ok herase
  exact ⟨i, hslot, reslotted_setIfInBounds hslot _ _⟩

theorem Reslotted.inSlot_iff {slot : Option Record} (h : Reslotted t t' i slot) :
    t'.InSlot j key ↔ if j = i then ∃ value, slot = some ⟨key, value⟩ else t.InSlot j key := by
  rw [InSlot, h j]
  split
  · simp only [Option.some.injEq]
  · rfl

theorem not_inSlot_empty (capacity : Nat) : ¬ (empty capacity).InSlot i key := by
  rintro ⟨value, hslot⟩
  rw [empty, Array.getElem?_replicate] at hslot
  split at hslot <;> cases hslot

theorem InSlot.perform (h : t.InSlot i key) {call : Call} (hclear : call ≠ .clear)
    (herased : call ≠ .erase key) : (Table.perform t call).2.InSlot i key := by
  have hsteps := perform_steps t call
  generalize (Table.perform t call).2 = t' at hsteps
  obtain ⟨held, hslot⟩ := h
  cases hsteps with
  | kept => exact ⟨held, hslot⟩
  | cleared => exact absurd rfl hclear
  | @filled j other value hfree _ =>
    have hne : i ≠ j := by
      rintro rfl
      rw [hslot] at hfree
      cases hfree
    rw [(reslotted_setIfInBounds hfree _ _).inSlot_iff, if_neg hne]
    exact ⟨held, hslot⟩
  | @exchanged j other old value hold =>
    rw [(reslotted_setIfInBounds hold _ _).inSlot_iff]
    split
    · next hij =>
      rw [← hij, hslot] at hold
      cases hold
      exact ⟨value, rfl⟩
    · exact ⟨held, hslot⟩
  | @freed j other old hold =>
    have hne : i ≠ j := by
      rintro rfl
      rw [hslot] at hold
      cases hold
      exact herased rfl
    rw [(reslotted_setIfInBounds hold _ _).inSlot_iff, if_neg hne]
    exact ⟨held, hslot⟩

theorem InSlot.after (h : t.InSlot i key) {calls : List Call} (hclear : .clear ∉ calls)
    (herased : .erase key ∉ calls) : (Table.after t calls).InSlot i key := by
  induction calls generalizing t with
  | nil => exact h
  | cons call calls ih =>
    rw [List.mem_cons, not_or] at hclear herased
    exact ih (h.perform (Ne.symm hclear.1) (Ne.symm herased.1)) hclear.2 herased.2

theorem length_toList_eq_countP (t : SlotTable) :
    t.toList.length = t.slots.toList.countP Option.isSome :=
  List.length_filterMap_eq_countP

/-- As many slots as lie below a slot are in use if all of them are. -/
theorem le_length_toList (hi : i ≤ t.capacity) (h : ∀ j < i, t.Occupied j) :
    i ≤ t.toList.length := by
  have hlength : (t.slots.toList.take i).length = i := by
    rw [List.length_take, Array.length_toList]
    exact Nat.min_eq_left hi
  have hall : (t.slots.toList.take i).countP Option.isSome = i := by
    rw [List.countP_eq_length.mpr, hlength]
    intro slot hslot
    obtain ⟨j, hj⟩ := List.mem_iff_getElem?.mp hslot
    rw [List.getElem?_take] at hj
    split at hj
    · next hlt =>
      obtain ⟨r, hr⟩ := h j hlt
      rw [Array.getElem?_toList, hr] at hj
      cases hj
      rfl
    · cases hj
  rw [length_toList_eq_countP, ← hall]
  exact (List.take_sublist i _).countP_le

/-- A record has been in its slot before, or its slot is below the size. -/
theorem inSlot_of_perform (h : t.WellFormed) {call : Call}
    (hslot : (Table.perform t call).2.InSlot i key) :
    call ≠ .clear ∧ t.InSlot i key ∨ i < Table.size (Table.perform t call).2 := by
  have hsteps := perform_steps t call
  generalize (Table.perform t call).2 = t' at hsteps hslot
  cases hsteps with
  | kept hcall => exact Or.inl ⟨hcall, hslot⟩
  | cleared => exact absurd hslot (not_inSlot_empty t.capacity)
  | @filled j other value hfree hbefore =>
    rw [(reslotted_setIfInBounds hfree _ _).inSlot_iff] at hslot
    split at hslot
    · next hij =>
      obtain ⟨hj, -⟩ := Array.getElem?_eq_some_iff.mp hfree
      have hle := le_length_toList (Nat.le_of_lt hj) hbefore
      rw [← h.count_eq, ← hij] at hle
      exact Or.inr (Nat.lt_succ_of_le hle)
    · exact Or.inl ⟨nofun, hslot⟩
  | exchanged hold =>
    rw [(reslotted_setIfInBounds hold _ _).inSlot_iff] at hslot
    split at hslot
    · next hij =>
      obtain ⟨_, hkey⟩ := hslot
      cases hkey
      exact Or.inl ⟨nofun, _, hij ▸ hold⟩
    · exact Or.inl ⟨nofun, hslot⟩
  | freed hold =>
    rw [(reslotted_setIfInBounds hold _ _).inSlot_iff] at hslot
    split at hslot
    · obtain ⟨_, hkey⟩ := hslot
      cases hkey
    · exact Or.inl ⟨nofun, hslot⟩

theorem exists_size_of_inSlot {capacity : Nat} {calls : List Call}
    (hslot : (Table.after (empty capacity) calls).InSlot i key) :
    ∃ n, Table.ReachedSize (empty capacity) calls n ∧ i < n := by
  induction calls using List.reverseRecOn with
  | nil => exact absurd hslot (not_inSlot_empty capacity)
  | append_singleton calls call ih =>
    have hempty : LawfulTable.Sound (empty capacity) := empty_wellFormed capacity
    simp only [Table.reachedSize_concat]
    rw [Table.after_concat] at hslot
    rcases inSlot_of_perform (LawfulTable.after_keeps hempty calls).1 hslot with
      ⟨hclear, hslot⟩ | hlt
    · obtain ⟨n, hn, hi⟩ := ih hslot
      exact ⟨n, Or.inr ⟨hclear, hn⟩, hi⟩
    · exact ⟨_, Or.inl rfl, hlt⟩

theorem has_iff_inSlot (t : SlotTable) (key : String) :
    Table.Has t key ↔ ∃ i, t.InSlot i key := by
  constructor
  · rintro ⟨r, hr, rfl⟩
    obtain ⟨i, hi⟩ := Array.mem_iff_getElem?.mp (mem_toList_iff.mp hr)
    exact ⟨i, r.value, hi⟩
  · rintro ⟨i, value, hi⟩
    exact ⟨_, mem_toList_iff.mpr (Array.mem_of_getElem? hi), rfl⟩

structure Slotted (t : SlotTable) : Prop where
  slot_unique : ∀ i j key, t.InSlot i key → t.InSlot j key → i = j
  size_eq : Table.size t = t.slots.countP Option.isSome
  inserted : ∀ key value t', t.insert key value = .ok t' →
    ∃ i, t.slots[i]? = some none ∧ (∀ j < i, t.Occupied j) ∧
      Reslotted t t' i (some ⟨key, value⟩)
  replaced : ∀ key value old t', t.replace key value = .ok (old, t') →
    ∃ i, t.slots[i]? = some (some ⟨key, old⟩) ∧ Reslotted t t' i (some ⟨key, value⟩)
  erased : ∀ key old t', t.erase key = .ok (old, t') →
    ∃ i, t.slots[i]? = some (some ⟨key, old⟩) ∧ Reslotted t t' i none
  cleared : ∀ i, ¬ t.clear.Occupied i
  full_iff : ∀ key value, t.insert key value = .error .storeFull ↔
    (∀ i, ¬ t.InSlot i key) ∧ ∀ i < t.capacity, t.Occupied i
  occupied_iff : (∀ i < t.capacity, t.Occupied i) ↔ Table.size t = t.capacity

theorem slot_unique (h : t.WellFormed) (hi : t.InSlot i key) (hj : t.InSlot j key) : i = j := by
  have hkeys : t.slots.toList.Pairwise fun slot slot' =>
      ∀ r, slot = some r → ∀ r', slot' = some r' → r.key ≠ r'.key :=
    List.pairwise_filterMap.mp (List.pairwise_map.mp h.distinct)
  rw [List.pairwise_iff_getElem] at hkeys
  obtain ⟨_, hi⟩ := hi
  obtain ⟨_, hj⟩ := hj
  obtain ⟨hi, hslot⟩ := Array.getElem?_eq_some_iff.mp hi
  obtain ⟨hj, hslot'⟩ := Array.getElem?_eq_some_iff.mp hj
  rcases Nat.lt_trichotomy i j with hij | hij | hij
  · exact (hkeys i j hi hj hij _ hslot _ hslot' rfl).elim
  · exact hij
  · exact (hkeys j i hj hi hij _ hslot' _ hslot rfl).elim

theorem occupied_iff (h : t.WellFormed) :
    (∀ i < t.capacity, t.Occupied i) ↔ Table.size t = t.capacity := by
  have hle := length_toList_le t
  have hsize : Table.size t = t.toList.length := h.count_eq
  rw [hsize]
  constructor
  · intro hall
    exact Nat.le_antisymm hle (le_length_toList (Nat.le_refl _) hall)
  · intro hfull i hi
    rw [length_toList_eq_countP, capacity, ← Array.length_toList, List.countP_eq_length] at hfull
    have hsome := hfull _ (List.getElem_mem (l := t.slots.toList) hi)
    obtain ⟨r, hr⟩ := Option.isSome_iff_exists.mp hsome
    exact ⟨r, (Array.getElem?_eq_getElem hi).trans (congrArg some hr)⟩

theorem WellFormed.slotted (h : t.WellFormed) : t.Slotted where
  slot_unique _ _ _ := slot_unique h
  size_eq := by
    rw [← Array.countP_toList, ← length_toList_eq_countP]
    exact h.count_eq
  inserted _ _ _ := reslotted_insert
  replaced _ _ _ _ := reslotted_replace
  erased _ _ _ := reslotted_erase
  cleared i hi := by
    obtain ⟨key, hslot⟩ := hi.inSlot
    exact not_inSlot_empty t.capacity hslot
  full_iff key value := by
    have hfull : t.insert key value = .error .storeFull ↔
        ¬ Table.Has t key ∧ Table.size t = t.capacity :=
      LawfulTable.insert_eq_full_iff (t := t) h key value
    rw [hfull, has_iff_inSlot, not_exists, occupied_iff h]
  occupied_iff := occupied_iff h

/-- After any run of calls each key has one slot, the first that was free when its record came, and
keeps it through any further calls that neither take the key out nor clear the table. All slots in
use are below the largest size since the last clearing, or since the start. -/
theorem slotted_after (capacity : Nat) (calls : List Call) :
    let t := Table.after (empty capacity) calls
    t.capacity = capacity ∧ t.Slotted ∧
      (∀ i key more, t.InSlot i key → Call.clear ∉ more → Call.erase key ∉ more →
        (Table.after t more).InSlot i key) ∧
      ∃ n, Table.ReachedSize (empty capacity) calls n ∧
        (∀ m, Table.ReachedSize (empty capacity) calls m → m ≤ n) ∧
        ∀ i, t.Occupied i → i < n := by
  intro t
  have hempty : LawfulTable.Sound (empty capacity) := empty_wellFormed capacity
  obtain ⟨h, hcapacity⟩ := LawfulTable.after_keeps hempty calls
  obtain ⟨n, hn, hmax⟩ := Table.exists_largestSize (empty capacity) calls
  refine ⟨hcapacity.trans (capacity_empty capacity), WellFormed.slotted h, ?_, n, hn, hmax, ?_⟩
  · intro i key more hslot hclear herased
    exact hslot.after hclear herased
  · intro i hi
    obtain ⟨key, hslot⟩ := hi.inSlot
    obtain ⟨m, hm, hlt⟩ := exists_size_of_inSlot hslot
    exact Nat.lt_of_lt_of_le hlt (hmax m hm)

end SlotTable

end TriStore
