import Std.Data.ExtTreeMap
import TriStore.Table

/-!
# Contents

What a table holds, apart from how it is laid out: a finite map from keys to values. The map of a
list of records does not depend on their order as long as no key occurs twice.
-/

namespace TriStore

def DistinctKeys (records : List Record) : Prop := (records.map (·.key)).Nodup

abbrev Contents := Std.ExtTreeMap String String

namespace DistinctKeys
variable {records others : List Record} {r : Record}

theorem nodup (h : DistinctKeys records) : records.Nodup :=
  List.Pairwise.of_map (·.key) (fun _ _ hkey hrecord => hkey (congrArg _ hrecord)) h

theorem perm (h : DistinctKeys records) (hp : records.Perm others) : DistinctKeys others :=
  (hp.map _).nodup_iff.mp h

theorem cons (h : DistinctKeys records) (hr : ∀ s ∈ records, s.key ≠ r.key) :
    DistinctKeys (r :: records) := by
  refine List.nodup_cons.mpr ⟨fun hmem => ?_, h⟩
  obtain ⟨s, hs, hkey⟩ := List.mem_map.mp hmem
  exact hr s hs hkey

theorem of_cons (h : DistinctKeys (r :: records)) : DistinctKeys records :=
  (List.nodup_cons.mp h).2

theorem ne_of_mem (h : DistinctKeys (r :: records)) {s : Record} (hs : s ∈ records) :
    s.key ≠ r.key := by
  intro hkey
  apply (List.nodup_cons.mp h).1
  exact List.mem_map.mpr ⟨s, hs, hkey⟩

theorem inserted (h : DistinctKeys records) (hr : ¬ ∃ s ∈ records, s.key = r.key)
    (hp : others.Perm (r :: records)) : DistinctKeys others :=
  (h.cons fun s hs hkey => hr ⟨s, hs, hkey⟩).perm hp.symm

theorem replaced {rest : List Record} (h : DistinctKeys records) (hp : records.Perm (r :: rest))
    {value : String} (hp' : others.Perm (⟨r.key, value⟩ :: rest)) : DistinctKeys others := by
  have hold : DistinctKeys (r :: rest) := h.perm hp
  have hnew : DistinctKeys (⟨r.key, value⟩ :: rest) := hold
  exact hnew.perm hp'.symm

theorem erased (h : DistinctKeys records) (hp : records.Perm (r :: others)) :
    DistinctKeys others :=
  (h.perm hp).of_cons

end DistinctKeys

/-- Of two listings one has the keys of the other in their order, and perhaps more. -/
def Nested (records others : List Record) : Prop :=
  (records.map (·.key)).Sublist (others.map (·.key)) ∨
    (others.map (·.key)).Sublist (records.map (·.key))

namespace Contents

/-- The map of a list of records; of several with one key the first counts. -/
def ofList : List Record → Contents
  | [] => ∅
  | r :: records => (ofList records).insert r.key r.value

theorem getElem?_ofList_cons (r : Record) (records : List Record) (key : String) :
    (ofList (r :: records))[key]? = if r.key = key then some r.value else (ofList records)[key]? := by
  rw [ofList, Std.ExtTreeMap.getElem?_insert]
  simp only [Std.LawfulEqOrd.compare_eq_iff_eq]

theorem getElem?_ofList_eq_some_iff {records : List Record} (h : DistinctKeys records)
    (key value : String) : (ofList records)[key]? = some value ↔ ⟨key, value⟩ ∈ records := by
  induction records with
  | nil => simp [ofList]
  | cons r records ih =>
    rw [getElem?_ofList_cons, List.mem_cons]
    split
    · next hkey =>
      constructor
      · intro hvalue
        left
        rw [← hkey, ← Option.some.inj hvalue]
      · rintro (rfl | hmem)
        · rfl
        · exact absurd hkey.symm (h.ne_of_mem hmem)
    · next hkey =>
      rw [ih h.of_cons]
      constructor
      · exact Or.inr
      · rintro (rfl | hmem)
        · exact absurd rfl hkey
        · exact hmem

/-- What a search among records finds is what their map holds, if it finds a record of the key where
there is one. -/
theorem value_eq_some_iff {records : List Record} (h : DistinctKeys records) {found : Option Record}
    {key : String} (hsome : ∀ r, found = some r → r ∈ records ∧ r.key = key)
    (hnone : found = none → ¬ ∃ r ∈ records, r.key = key) (value : String) :
    found.map (·.value) = some value ↔ ⟨key, value⟩ ∈ records := by
  cases found with
  | none =>
    constructor
    · intro hvalue
      cases hvalue
    · intro hmem
      exact absurd ⟨_, hmem, rfl⟩ (hnone rfl)
  | some r =>
    obtain ⟨hr, rfl⟩ := hsome r rfl
    have hheld := (getElem?_ofList_eq_some_iff h r.key r.value).mpr hr
    rw [← getElem?_ofList_eq_some_iff h, hheld]
    rfl

theorem mem_ofList_iff (records : List Record) (key : String) :
    key ∈ ofList records ↔ ∃ r ∈ records, r.key = key := by
  induction records with
  | nil => simp [ofList]
  | cons r records ih =>
    rw [ofList, Std.ExtTreeMap.mem_insert, ih]
    simp only [Std.LawfulEqOrd.compare_eq_iff_eq, List.mem_cons, exists_eq_or_imp]

theorem ofList_perm {records others : List Record} (h : DistinctKeys records)
    (hp : records.Perm others) : ofList records = ofList others := by
  apply Std.ExtTreeMap.ext_getElem?
  intro key
  apply Option.ext
  intro value
  rw [getElem?_ofList_eq_some_iff h, getElem?_ofList_eq_some_iff (h.perm hp), hp.mem_iff]

theorem size_ofList {records : List Record} (h : DistinctKeys records) :
    (ofList records).size = records.length := by
  induction records with
  | nil => simp [ofList]
  | cons r records ih =>
    have hnew : ¬ r.key ∈ ofList records := by
      rw [mem_ofList_iff]
      rintro ⟨s, hs, hkey⟩
      exact h.ne_of_mem hs hkey
    rw [ofList, Std.ExtTreeMap.size_insert, ih h.of_cons]
    simp [hnew]

theorem ofList_cons_insert (key old value : String) (records : List Record) :
    ofList (⟨key, value⟩ :: records) = (ofList (⟨key, old⟩ :: records)).insert key value := by
  apply Std.ExtTreeMap.ext_getElem?
  intro k
  simp only [ofList, Std.ExtTreeMap.getElem?_insert]
  split <;> rfl

theorem ofList_cons_erase {key value : String} {records : List Record}
    (h : DistinctKeys (⟨key, value⟩ :: records)) :
    (ofList (⟨key, value⟩ :: records)).erase key = ofList records := by
  apply Std.ExtTreeMap.ext_getElem?
  intro k
  rw [Std.ExtTreeMap.getElem?_erase, getElem?_ofList_cons]
  simp only [Std.LawfulEqOrd.compare_eq_iff_eq]
  split
  · next hkey =>
    symm
    apply Std.ExtTreeMap.getElem?_eq_none
    rw [mem_ofList_iff]
    rintro ⟨s, hs, hs'⟩
    exact h.ne_of_mem hs (hs'.trans hkey.symm)
  · rfl

end Contents

end TriStore
