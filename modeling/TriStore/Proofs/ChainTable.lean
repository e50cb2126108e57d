import TriStore.ChainTable
import TriStore.Proofs.Laws

/-!
# Chains keep the laws of tables

Each call changes one chain at most, that of its key, and the records of the other chains stay. The
invariant is that every record lies in the chain of its key, that no key occurs twice, and that the
count is the number of records. It does not depend on how many chains there are.
-/

namespace TriStore

namespace Chain
variable {chain : Chain} {key : String} {r : Record}

theorem find?_eq_some (h : chain.find? key = some r) : r ∈ chain ∧ r.key = key := by
  rw [find?] at h
  have hkey := List.find?_some h
  exact ⟨List.mem_of_find?_eq_some h, beq_iff_eq.mp hkey⟩

theorem find?_eq_none (h : chain.find? key = none) : ¬ ∃ r ∈ chain, r.key = key := by
  rintro ⟨r, hr, hkey⟩
  exact List.find?_eq_none.mp h r hr (beq_iff_eq.mpr hkey)

theorem setValue_perm (h : chain.find? key = some r) (value : String) :
    ∃ rest, List.Perm chain (r :: rest) ∧
      List.Perm (chain.setValue key value) (⟨r.key, value⟩ :: rest) := by
  induction chain with
  | nil => cases h
  | cons s chain ih =>
    rw [find?, List.find?_cons] at h
    by_cases hkey : s.key = key
    · rw [beq_iff_eq.mpr hkey] at h
      cases h
      rw [setValue, if_pos hkey]
      exact ⟨chain, .refl _, .refl _⟩
    · rw [beq_eq_false_iff_ne.mpr hkey] at h
      obtain ⟨rest, hp, hp'⟩ := ih h
      refine ⟨s :: rest, (hp.cons s).trans (.swap _ _ _), ?_⟩
      rw [setValue, if_neg hkey]
      exact (hp'.cons s).trans (.swap _ _ _)

theorem map_key_setValue (chain : Chain) (key value : String) :
    (chain.setValue key value).map (·.key) = List.map (·.key) chain := by
  induction chain with
  | nil => rfl
  | cons r chain ih =>
    rw [setValue]
    split
    · rfl
    · rw [List.map_cons, List.map_cons, ih]

/-- Whichever record the last one replaces, just that record is lost. -/
theorem swapOut_perm {i : Nat} (h : chain[i]? = some r) :
    List.Perm chain (r :: chain.swapOut i) := by
  rcases List.eq_nil_or_concat chain with rfl | ⟨init, last, rfl⟩
  · cases h
  · rw [List.concat_eq_append] at h ⊢
    rw [swapOut, List.getLast?_concat]
    by_cases hi : i < init.length
    · rw [List.getElem?_append_left hi] at h
      obtain ⟨-, rfl⟩ := List.getElem?_eq_some_iff.mp h
      obtain ⟨before, after, hinit, -, hset⟩ : ∃ before after,
          init = before ++ init[i] :: after ∧ before.length = i ∧
            init.set i last = before ++ last :: after := List.exists_of_set hi
      have hrest : init.Perm (init[i] :: (before ++ after)) := by
        conv => lhs; rw [hinit]
        exact List.perm_middle
      simp only [List.set_append_left _ _ hi, List.dropLast_concat, hset]
      calc (init ++ [last]).Perm (last :: init) := List.perm_append_singleton last init
        List.Perm _ (last :: init[i] :: (before ++ after)) := hrest.cons last
        List.Perm _ (init[i] :: last :: (before ++ after)) := .swap _ _ _
        List.Perm _ (init[i] :: (before ++ last :: after)) := List.perm_middle.symm.cons _
    · have hlt := (List.getElem?_eq_some_iff.mp h).1
      rw [List.length_append, List.length_singleton] at hlt
      obtain rfl : i = init.length := by omega
      rw [List.getElem?_concat_length] at h
      cases h
      simp only [List.set_append_right _ _ (Nat.le_refl _), Nat.sub_self, List.set_cons_zero,
        List.dropLast_concat]
      exact List.perm_append_singleton r init

theorem swapOut_findIdx_perm (h : chain.find? key = some r) :
    List.Perm chain (r :: chain.swapOut (chain.findIdx (·.key == key))) := by
  rw [find?, List.find?_eq_getElem?_findIdx] at h
  exact swapOut_perm h

end Chain

namespace ChainTable

structure WellFormed (t : ChainTable) : Prop where
  chains_pos : 0 < t.chains.size
  placed : ∀ i chain, t.chains[i]? = some chain → ∀ r ∈ chain, t.index r.key = i
  distinct : DistinctKeys t.toList
  count_eq : t.count = t.toList.length
  count_le : t.count ≤ t.capacity

theorem toList_empty (capacity chains : Nat) : (empty capacity chains).toList = [] := by
  rw [toList, List.flatten_eq_nil_iff]
  intro chain hchain
  rw [empty, Array.toList_replicate] at hchain
  exact List.eq_of_mem_replicate hchain

theorem empty_wellFormed (capacity chains : Nat) : (empty capacity chains).WellFormed where
  chains_pos := by
    rw [empty, Array.size_replicate]
    omega
  placed := by
    intro i chain hchain r hr
    rw [empty, Array.getElem?_replicate] at hchain
    split at hchain
    · cases hchain
      cases hr
    · cases hchain
  distinct := by
    rw [toList_empty]
    exact List.nodup_nil
  count_eq := by
    rw [toList_empty]
    rfl
  count_le := Nat.zero_le _

theorem bounded_empty (capacity chains : Nat) :
    Table.bounded (empty capacity chains) = .empty capacity := by
  have htoList : Table.toList (empty capacity chains) = [] := toList_empty capacity chains
  rw [Table.bounded, htoList]
  rfl

variable {t : ChainTable} {key : String} {r : Record}

theorem getElem?_index (h : t.WellFormed) (key : String) :
    t.chains[t.index key]? = some (t.chainOf key) := by
  have hlt : t.index key < t.chains.size := Nat.mod_lt _ h.chains_pos
  rw [chainOf, Array.getD_eq_getD_getElem?, Array.getElem?_eq_getElem hlt]
  rfl

theorem has_iff (h : t.WellFormed) (key : String) :
    Table.Has t key ↔ ∃ r ∈ t.chainOf key, r.key = key := by
  constructor
  · rintro ⟨r, hr, rfl⟩
    obtain ⟨chain, hchain, hr⟩ := List.mem_flatten.mp hr
    obtain ⟨i, hi⟩ := Array.mem_iff_getElem?.mp (Array.mem_toList_iff.mp hchain)
    have hindex := h.placed i chain hi r hr
    have hsome := getElem?_index h r.key
    rw [hindex, hi] at hsome
    cases hsome
    exact ⟨r, hr, rfl⟩
  · rintro ⟨r, hr, hkey⟩
    have hchain := Array.mem_of_getElem? (getElem?_index h key)
    exact ⟨r, List.mem_flatten.mpr ⟨_, Array.mem_toList_iff.mpr hchain, hr⟩, hkey⟩

/-- When the chain of a key is changed, the records of the others stay where they are. -/
theorem exists_around (h : t.WellFormed) (key : String) (f : Chain → Chain) (count : Nat) :
    ∃ before after : List Record, t.toList = before ++ (t.chainOf key ++ after) ∧
      toList { t with chains := t.chains.modify (t.index key) f, count } =
        before ++ (f (t.chainOf key) ++ after) := by
  have hchain := getElem?_index h key
  rw [← Array.getElem?_toList] at hchain
  obtain ⟨hi, -⟩ := List.getElem?_eq_some_iff.mp hchain
  obtain ⟨before, chain, after, hchains, hlength, hmodify⟩ := List.exists_of_modify f hi
  rw [hchains, ← hlength, List.getElem?_append_right (Nat.le_refl _), Nat.sub_self] at hchain
  cases hchain
  refine ⟨before.flatten, after.flatten, ?_, ?_⟩
  · rw [toList, hchains, List.flatten_append, List.flatten_cons]
  · rw [toList, Array.toList_modify, hmodify, List.flatten_append, List.flatten_cons]

theorem exists_rest (h : t.WellFormed) (key : String) (f : Chain → Chain) (count : Nat) :
    ∃ rest, t.toList.Perm (t.chainOf key ++ rest) ∧
      (toList { t with chains := t.chains.modify (t.index key) f, count }).Perm
        (f (t.chainOf key) ++ rest) := by
  obtain ⟨before, after, hold, hnew⟩ := exists_around h key f count
  rw [hold, hnew]
  exact ⟨before ++ after, List.perm_append_comm_assoc _ _ _, List.perm_append_comm_assoc _ _ _⟩

/-- To change the chain of a key it is enough that the new chain has records of its own only. -/
theorem wellFormed_modify (h : t.WellFormed) {f : Chain → Chain} {count : Nat}
    (hf : ∀ r ∈ f (t.chainOf key), t.index r.key = t.index key) :
    let t' : ChainTable := { t with chains := t.chains.modify (t.index key) f, count }
    DistinctKeys t'.toList → t'.count = t'.toList.length → t'.count ≤ t'.capacity →
      t'.WellFormed := by
  intro t' hdistinct hcount hle
  have hsize : t'.chains.size = t.chains.size := Array.size_modify
  refine ⟨hsize ▸ h.chains_pos, fun i chain hchain r hr => ?_, hdistinct, hcount, hle⟩
  rw [index, hsize]
  rw [Array.getElem?_modify] at hchain
  split at hchain
  · next hi =>
    rw [← hi, getElem?_index h key] at hchain
    cases hchain
    exact (hf r hr).trans hi
  · exact h.placed i chain hchain r hr

theorem get?_eq_some_iff (h : t.WellFormed) (key value : String) :
    t.get? key = some value ↔ ⟨key, value⟩ ∈ t.toList := by
  rw [get?]
  refine Contents.value_eq_some_iff h.distinct ?_ ?_ value
  · intro r hfind
    obtain ⟨hr, hkey⟩ := Chain.find?_eq_some hfind
    have hchain := Array.mem_of_getElem? (getElem?_index h key)
    exact ⟨List.mem_flatten.mpr ⟨_, Array.mem_toList_iff.mpr hchain, hr⟩, hkey⟩
  · intro hfind hhas
    exact Chain.find?_eq_none hfind ((has_iff h key).mp hhas)

theorem insert_outcome (h : t.WellFormed) (key value : String) :
    Table.Inserts WellFormed t key value (t.insert key value) := by
  rw [insert]
  cases hfind : t.find? key with
  | some r =>
    rw [if_pos Option.isSome_some]
    exact .present ((has_iff h key).mpr ⟨r, Chain.find?_eq_some hfind⟩)
  | none =>
    have hnew : ¬ Table.Has t key := mt (has_iff h key).mp (Chain.find?_eq_none hfind)
    rw [if_neg (by decide)]
    by_cases hfull : t.capacity ≤ t.count
    · rw [if_pos hfull]
      exact .full hnew hfull
    · rw [if_neg hfull]
      have hroom : t.count < t.capacity := Nat.lt_of_not_le hfull
      obtain ⟨rest, hp, hp'⟩ := exists_rest h key (· ++ [⟨key, value⟩]) (t.count + 1)
      have hchain := List.perm_append_singleton (⟨key, value⟩ : Record) (t.chainOf key)
      have hperm := (hp'.trans (hchain.append_right rest)).trans (hp.symm.cons _)
      have hdistinct := h.distinct.inserted (r := ⟨key, value⟩) hnew hperm
      have hcount := (congrArg (· + 1) h.count_eq).trans hperm.length_eq.symm
      have hplaced : ∀ r ∈ t.chainOf key ++ [⟨key, value⟩], t.index r.key = t.index key := by
        intro r hr
        rcases List.mem_append.mp hr with hr | hr
        · exact h.placed _ _ (getElem?_index h key) r hr
        · rw [List.mem_singleton.mp hr]
      exact .done hnew hroom (wellFormed_modify h hplaced hdistinct hcount hroom) rfl hperm

theorem replace_outcome (h : t.WellFormed) (key value : String) :
    Table.Replaces WellFormed t key value (t.replace key value) := by
  rw [replace]
  cases hfind : t.find? key with
  | none => exact .absent (mt (has_iff h key).mp (Chain.find?_eq_none hfind))
  | some r =>
    obtain ⟨hr, rfl⟩ := Chain.find?_eq_some hfind
    obtain ⟨others, hchain, hchain'⟩ := Chain.setValue_perm hfind value
    obtain ⟨rest, hp, hp'⟩ := exists_rest h r.key (·.setValue r.key value) t.count
    have hold := hp.trans (hchain.append_right rest)
    have hnew := hp'.trans (hchain'.append_right rest)
    have hcount := h.count_eq.trans (hold.length_eq.trans hnew.length_eq.symm)
    have hplaced : ∀ s ∈ (t.chainOf r.key).setValue r.key value, t.index s.key = t.index r.key := by
      intro s hs
      rcases List.mem_cons.mp (hchain'.mem_iff.mp hs) with rfl | hs
      · rfl
      · exact h.placed _ _ (getElem?_index h r.key) s
          (hchain.mem_iff.mpr (List.mem_cons_of_mem _ hs))
    have hdistinct := h.distinct.replaced hold hnew
    exact .done (wellFormed_modify h hplaced hdistinct hcount h.count_le) rfl hold hnew

theorem erase_outcome (h : t.WellFormed) (key : String) :
    Table.Erases WellFormed t key (t.erase key) := by
  rw [erase]
  cases hfind : (t.chainOf key).find? key with
  | none => exact .absent (mt (has_iff h key).mp (Chain.find?_eq_none hfind))
  | some r =>
    obtain ⟨hr, rfl⟩ := Chain.find?_eq_some hfind
    have hchain := Chain.swapOut_findIdx_perm hfind
    obtain ⟨rest, hp, hp'⟩ := exists_rest h r.key
      (·.swapOut ((t.chainOf r.key).findIdx (·.key == r.key))) (t.count - 1)
    have hperm := (hp.trans (hchain.append_right rest)).trans (hp'.symm.cons r)
    have hcount := congrArg (· - 1) (h.count_eq.trans hperm.length_eq)
    have hplaced : ∀ s ∈ (t.chainOf r.key).swapOut ((t.chainOf r.key).findIdx (·.key == r.key)),
        t.index s.key = t.index r.key := by
      intro s hs
      exact h.placed _ _ (getElem?_index h r.key) s
        (hchain.mem_iff.mpr (List.mem_cons_of_mem _ hs))
    have hle := Nat.le_trans (Nat.sub_le t.count 1) h.count_le
    exact .done (wellFormed_modify h hplaced (h.distinct.erased hperm) hcount hle) rfl hperm

theorem insert_eq_ok {value : String} {t' : ChainTable} (h : t.insert key value = .ok t') :
    t' = { t with
      chains := t.chains.modify (t.index key) (· ++ [⟨key, value⟩])
      count := t.count + 1 } := by
  unfold insert at h
  split at h
  · cases h
  · split at h
    · cases h
    · cases h
      rfl

theorem replace_eq_ok {value old : String} {t' : ChainTable}
    (h : t.replace key value = .ok (old, t')) :
    t' = { t with chains := t.chains.modify (t.index key) (·.setValue key value) } := by
  unfold replace at h
  split at h
  · cases h
    rfl
  · cases h

theorem erase_eq_ok {old : String} {t' : ChainTable} (h : t.erase key = .ok (old, t')) :
    t' = { t with
      chains := t.chains.modify (t.index key)
        (·.swapOut ((t.chainOf key).findIdx (·.key == key)))
      count := t.count - 1 } := by
  unfold erase at h
  dsimp only at h
  split at h
  · cases h
    rfl
  · cases h

/-- As long as nothing is taken out, keys keep their order, and new ones come between them. -/
theorem sublist_perform (h : t.WellFormed) {call : Call} (hcall : call.removes = false) :
    ((Table.toList t).map (·.key)).Sublist
      ((Table.toList (Table.perform t call).2).map (·.key)) := by
  change (t.toList.map (·.key)).Sublist ((Table.perform t call).2.toList.map (·.key))
  cases call with
  | insert key value =>
    rw [Table.perform]
    cases hinsert : Table.insert t key value with
    | error cause => exact List.Sublist.refl _
    | ok t' =>
      obtain rfl := insert_eq_ok hinsert
      obtain ⟨before, after, hold, hnew⟩ :=
        exists_around h key (· ++ [⟨key, value⟩]) (t.count + 1)
      rw [hnew, hold]
      refine List.Sublist.map _ ((List.Sublist.refl _).append ?_)
      exact (List.sublist_append_left _ _).append (List.Sublist.refl _)
  | replace key value =>
    rw [Table.perform]
    cases hreplace : Table.replace t key value with
    | error cause => exact List.Sublist.refl _
    | ok found =>
      obtain ⟨old, t'⟩ := found
      obtain rfl := replace_eq_ok hreplace
      obtain ⟨before, after, hold, hnew⟩ := exists_around h key (·.setValue key value) t.count
      rw [hnew, hold]
      simp only [List.map_append, Chain.map_key_setValue]
      exact List.Sublist.refl _
  | get key => exact List.Sublist.refl _
  | contains key => exact List.Sublist.refl _
  | erase key => cases hcall
  | clear => cases hcall

instance : LawfulTable ChainTable where
  Sound := WellFormed
  distinct h := h.distinct
  size_eq h := h.count_eq
  size_le h := h.count_le
  get?_eq_some_iff := get?_eq_some_iff
  inserts := insert_outcome
  replaces := replace_outcome
  erases := erase_outcome
  clear_sound _ := empty_wellFormed _ _
  capacity_clear _ := rfl
  toList_clear t := toList_empty t.capacity t.chains.size

end ChainTable

end TriStore
