import TriStore.Proofs.Chains
import TriStore.Proofs.Store

/-!
# Tables filled from a listing

The records of a table can be added to an empty table of the same sizes in the order in which they are
listed, and are listed in the same order again. A gap or another order of arrival leaves no trace in a
listing: slots are filled from the first one on, a chain lists its records in the order in which they
come, and a tree lists them by their keys.
-/

namespace TriStore

namespace Table
variable {τ : Type} [Table τ]

/-- Records that are added one after another, none of which is refused. -/
inductive Fills : τ → List Record → τ → Prop where
  | nil {t : τ} : Fills t [] t
  | cons {t next last : τ} {r : Record} {records : List Record} :
      insert t r.key r.value = .ok next → Fills next records last → Fills t (r :: records) last

end Table

open Table

namespace LawfulTable
variable {τ : Type} [Table τ] [LawfulTable τ] {t : τ}

theorem insert_new (h : Sound t) {key : String} (value : String) (hnew : ¬ Has t key)
    (hroom : size t < capacity t) :
    ∃ t', insert t key value = .ok t' ∧ Sound t' ∧ capacity t' = capacity t ∧
      (toList t').Perm (⟨key, value⟩ :: toList t) := by
  have hinserts := inserts h key value
  generalize insert t key value = result at hinserts
  cases hinserts with
  | done _ _ hsound hcap hperm => exact ⟨_, rfl, hsound, hcap, hperm⟩
  | present hold => exact absurd hold hnew
  | full _ hfull => omega

theorem sound_of_insert (h : Sound t) {key value : String} {t' : τ}
    (hinsert : insert t key value = .ok t') : Sound t' := by
  have hinserts := inserts h key value
  rw [hinsert] at hinserts
  cases hinserts with
  | done _ _ hsound _ _ => exact hsound

theorem exists_fills (h : Sound t) {records : List Record}
    (hdistinct : DistinctKeys (toList t ++ records))
    (hroom : size t + records.length ≤ capacity t) :
    ∃ t', Fills t records t' ∧ Sound t' ∧ (toList t').Perm (toList t ++ records) := by
  induction records generalizing t with
  | nil =>
    rw [List.append_nil]
    exact ⟨t, .nil, h, .refl _⟩
  | cons r records ih =>
    have hfront : DistinctKeys (r :: (toList t ++ records)) := hdistinct.perm List.perm_middle
    have hnew : ¬ Has t r.key := by
      rintro ⟨s, hs, hkey⟩
      exact hfront.ne_of_mem (List.mem_append_left _ hs) hkey
    rw [List.length_cons] at hroom
    obtain ⟨next, hinsert, hsound, hcap, hperm⟩ := insert_new h r.value hnew (by omega)
    have hall : (toList next ++ records).Perm (r :: (toList t ++ records)) :=
      hperm.append_right records
    have hsize : size next = size t + 1 := by
      rw [size_eq hsound, size_eq h, hperm.length_eq, List.length_cons]
    obtain ⟨last, hfills, hlast, hlisted⟩ := ih hsound (hfront.perm hall.symm) (by omega)
    refine ⟨last, .cons hinsert hfills, hlast, hlisted.trans (hall.trans ?_)⟩
    exact List.perm_middle.symm

end LawfulTable

namespace SlotTable
variable {t t' : SlotTable} {key value : String} {records : List Record}

def Packed (t : SlotTable) : Prop :=
  ∃ free, t.slots.toList = t.toList.map some ++ List.replicate free none

theorem packed_of_toList_nil (h : t.toList = []) : t.Packed := by
  refine ⟨t.slots.toList.length, ?_⟩
  rw [h, List.map_nil, List.nil_append]
  refine List.eq_replicate_iff.mpr ⟨rfl, ?_⟩
  rw [toList, List.filterMap_eq_nil_iff] at h
  exact h

theorem Packed.insert (h : t.Packed) (hinsert : t.insert key value = .ok t') :
    t'.Packed ∧ t'.toList = t.toList ++ [⟨key, value⟩] := by
  obtain ⟨free, hslots⟩ := h
  obtain ⟨i, hfree, hbefore, rfl⟩ := insert_eq_ok hinsert
  have hslot (j : Nat) : t.slots[j]? = (t.toList.map some ++ List.replicate free none)[j]? := by
    rw [← hslots, Array.getElem?_toList]
  have hi : i = (t.toList.map some).length := by
    rcases Nat.lt_trichotomy i (t.toList.map some).length with hlt | heq | hgt
    · rw [hslot, List.getElem?_append_left hlt, List.getElem?_map] at hfree
      cases hr : t.toList[i]? <;> rw [hr] at hfree <;> cases hfree
    · exact heq
    · obtain ⟨r, hr⟩ := hbefore _ hgt
      rw [hslot, List.getElem?_append_right (Nat.le_refl _), List.getElem?_replicate] at hr
      split at hr <;> cases hr
  rw [hslot, hi, List.getElem?_append_right (Nat.le_refl _), Nat.sub_self] at hfree
  cases free with
  | zero => cases hfree
  | succ free =>
    have hnew : (t.slots.setIfInBounds i (some ⟨key, value⟩)).toList =
        (t.toList ++ [(⟨key, value⟩ : Record)]).map some ++ List.replicate free none := by
      rw [Array.toList_setIfInBounds, hslots, hi, List.set_append_right _ _ (Nat.le_refl _),
        Nat.sub_self, List.replicate_succ, List.set_cons_zero, List.map_append, List.append_assoc]
      rfl
    have hlist : toList ⟨t.slots.setIfInBounds i (some ⟨key, value⟩), t.count + 1⟩ =
        t.toList ++ [⟨key, value⟩] := by
      rw [toList, hnew, List.filterMap_append, List.filterMap_map, List.filterMap_replicate_of_none]
      · simp
      · rfl
    exact ⟨⟨free, hlist ▸ hnew⟩, hlist⟩

theorem toList_of_fills (h : t.Packed) (hfills : Fills t records t') :
    t'.toList = t.toList ++ records := by
  induction hfills with
  | nil => exact (List.append_nil _).symm
  | @cons t next last r records hinsert _ ih =>
    obtain ⟨hpacked, hlist⟩ := h.insert hinsert
    rw [ih hpacked, hlist, List.append_assoc, List.singleton_append]

end SlotTable

namespace ChainTable
variable {t t' : ChainTable} {key value : String} {listed records : List Record}

def share (t : ChainTable) (i : Nat) (records : List Record) : List Record :=
  records.filter (t.index ·.key == i)

/-- Every chain has its records in the order of a list. -/
def Dealt (t : ChainTable) (listed : List Record) : Prop :=
  ∀ i < t.chains.size, t.chains[i]? = some (t.share i listed)

theorem share_append (i : Nat) (records more : List Record) :
    t.share i (records ++ more) = t.share i records ++ t.share i more :=
  List.filter_append _ _

theorem share_eq_nil {i : Nat} (h : ∀ r ∈ records, t.index r.key ≠ i) : t.share i records = [] :=
  List.filter_eq_nil_iff.mpr fun r hr => mt beq_iff_eq.mp (h r hr)

theorem share_eq_self {i : Nat} (h : ∀ r ∈ records, t.index r.key = i) :
    t.share i records = records :=
  List.filter_eq_self.mpr fun r hr => beq_iff_eq.mpr (h r hr)

theorem share_congr (h : t.chains.size = t'.chains.size) (i : Nat) (records : List Record) :
    t.share i records = t'.share i records := by
  simp only [share, index, h]

theorem exists_chain_of_mem {chains : List Chain} {r : Record} (hr : r ∈ chains.flatten) :
    ∃ (i : Nat) (chain : Chain), chains[i]? = some chain ∧ r ∈ chain := by
  obtain ⟨chain, hchain, hr⟩ := List.mem_flatten.mp hr
  obtain ⟨i, hi⟩ := List.mem_iff_getElem?.mp hchain
  exact ⟨i, chain, hi, hr⟩

theorem dealt_toList (h : t.WellFormed) : t.Dealt t.toList := by
  -- the listing is cut at the chain; what stands before and after it belongs to other chains
  intro i hi
  obtain ⟨chain, hchain⟩ : ∃ chain, t.chains[i]? = some chain :=
    ⟨_, Array.getElem?_eq_getElem hi⟩
  have hplaced := h.placed
  simp only [← Array.getElem?_toList] at hchain hplaced ⊢
  rw [toList]
  generalize t.chains.toList = chains at hchain hplaced ⊢
  obtain ⟨hlt, rfl⟩ := List.getElem?_eq_some_iff.mp hchain
  have hsplit : chains = chains.take i ++ chains[i] :: chains.drop (i + 1) := by
    rw [List.getElem_cons_drop, List.take_append_drop]
  have hbefore : ∀ r ∈ (chains.take i).flatten, t.index r.key ≠ i := by
    intro r hr
    obtain ⟨j, other, hj, hr⟩ := exists_chain_of_mem hr
    rw [List.getElem?_take] at hj
    split at hj
    · next hji =>
      rw [hplaced j other hj r hr]
      exact Nat.ne_of_lt hji
    · cases hj
  have hafter : ∀ r ∈ (chains.drop (i + 1)).flatten, t.index r.key ≠ i := by
    intro r hr
    obtain ⟨j, other, hj, hr⟩ := exists_chain_of_mem hr
    rw [List.getElem?_drop] at hj
    rw [hplaced _ other hj r hr]
    omega
  have hshare : t.share i chains.flatten = chains[i] := by
    conv => lhs; rw [hsplit, List.flatten_append, List.flatten_cons]
    rw [share_append, share_append, share_eq_nil hbefore, share_eq_nil hafter,
      share_eq_self (hplaced i _ hchain), List.nil_append, List.append_nil]
  rw [hchain, hshare]

theorem Dealt.insert (hdealt : t.Dealt listed) (h : t.WellFormed)
    (hinsert : t.insert key value = .ok t') :
    t'.chains.size = t.chains.size ∧ t'.Dealt (listed ++ [⟨key, value⟩]) := by
  have hchains := rechained_insert h hinsert
  have hsize : t'.chains.size = t.chains.size := by
    obtain rfl := insert_eq_ok hinsert
    exact Array.size_modify
  have hlt : t.index key < t.chains.size := Nat.mod_lt _ h.chains_pos
  have hchain : t.chainOf key = t.share (t.index key) listed := by
    have hindex := hdealt _ hlt
    rw [getElem?_index h key] at hindex
    exact Option.some.inj hindex
  refine ⟨hsize, fun i hi => ?_⟩
  rw [share_congr hsize, share_append, hchains i]
  split
  · next heq =>
    have hown : t.share i [⟨key, value⟩] = [⟨key, value⟩] :=
      share_eq_self (List.forall_mem_singleton.mpr heq.symm)
    rw [hown, hchain, heq]
  · next hne =>
    have hforeign : t.share i [⟨key, value⟩] = [] :=
      share_eq_nil (List.forall_mem_singleton.mpr (Ne.symm hne))
    rw [hforeign, List.append_nil, hdealt i (hsize ▸ hi)]

theorem dealt_of_fills (h : t.WellFormed) (hdealt : t.Dealt listed)
    (hfills : Fills t records t') :
    t'.chains.size = t.chains.size ∧ t'.Dealt (listed ++ records) := by
  induction hfills generalizing listed with
  | nil => exact ⟨rfl, (List.append_nil listed).symm ▸ hdealt⟩
  | @cons t next last r records hinsert _ ih =>
    obtain ⟨hsize, hnext⟩ := hdealt.insert h hinsert
    have hsound : next.WellFormed := LawfulTable.sound_of_insert (t := t) h hinsert
    obtain ⟨hsize', hlast⟩ := ih hsound hnext
    rw [List.append_assoc, List.singleton_append] at hlast
    exact ⟨hsize'.trans hsize, hlast⟩

theorem toList_of_dealt (hsize : t.chains.size = t'.chains.size) (h : t.Dealt listed)
    (h' : t'.Dealt listed) : t.toList = t'.toList := by
  have hchains : t.chains = t'.chains := by
    apply Array.ext_getElem?
    intro i
    by_cases hi : i < t.chains.size
    · rw [h i hi, h' i (hsize ▸ hi), share_congr hsize]
    · rw [Array.getElem?_eq_none (Nat.le_of_not_lt hi),
        Array.getElem?_eq_none (hsize ▸ Nat.le_of_not_lt hi)]
  rw [toList, toList, hchains]

end ChainTable

/-- A table that has been empty once can be filled from its listing. -/
theorem Target.fills_listing {target : Target} {start : target.Form}
    (h : LawfulTable.Sound start) (hempty : toList start = []) (calls : List Call) :
    ∃ t, Fills start (toList (after start calls)) t ∧
      toList t = toList (after start calls) := by
  obtain ⟨hsound, hcap⟩ := LawfulTable.after_keeps h calls
  have hlength := LawfulTable.size_eq hsound
  have hle := LawfulTable.size_le hsound
  have hdistinct := LawfulTable.distinct hsound
  have hnone : size start = 0 := by rw [LawfulTable.size_eq h, hempty, List.length_nil]
  have hlisted : DistinctKeys (toList start ++ toList (after start calls)) := by
    rw [hempty]
    exact hdistinct
  obtain ⟨t, hfills, ht, hperm⟩ := LawfulTable.exists_fills h hlisted (by omega)
  refine ⟨t, hfills, ?_⟩
  rw [hempty, List.nil_append] at hperm
  cases target with
  | array =>
    have hlist := SlotTable.toList_of_fills (SlotTable.packed_of_toList_nil hempty) hfills
    exact hlist.trans (congrArg (· ++ toList (after start calls)) hempty)
  | hash =>
    have hdealt := ChainTable.dealt_toList (t := start) h
    rw [show start.toList = [] from hempty] at hdealt
    obtain ⟨hsize, hfilled⟩ := ChainTable.dealt_of_fills h hdealt hfills
    have hchains := ChainTable.size_chains_after (t := start) h calls
    exact ChainTable.toList_of_dealt (hsize.trans hchains.symm) hfilled
      (ChainTable.dealt_toList hsound)
  | tree =>
    refine List.Perm.eq_of_pairwise ?_ (TreeTable.sorted ht) (TreeTable.sorted hsound) hperm
    intro x y _ _ hxy hyx
    exact absurd hyx (String.lt_asymm hxy)

end TriStore
