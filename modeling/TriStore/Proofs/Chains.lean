import Mathlib.Algebra.GroupWithZero.Nat
import TriStore.Proofs.ChainTable
import TriStore.Proofs.KeyOrder

/-!
# Where the records of a chain table are

The chain of a key has the number that its hash gives, modulo the number of chains, and no call moves
a record to another chain. A new record comes last in its chain. A record that is taken out leaves a
gap, which the last record of the chain fills, so no other record of any chain moves.
-/

namespace TriStore

namespace KeyHash

def fnv1a (bytes : List UInt8) : Nat :=
  bytes.foldl (fun hash byte => (hash ^^^ byte.toNat) * 1099511628211 % 2 ^ 64) 14695981039346656037

theorem toNat_mix (hash : UInt64) (byte : UInt8) :
    (mix hash byte).toNat = (hash.toNat ^^^ byte.toNat) * 1099511628211 % 2 ^ 64 := by
  rw [mix, UInt64.toNat_mul, UInt64.toNat_xor, UInt8.toNat_toUInt64]
  rfl

theorem toNat_ofBytes (bytes : List UInt8) : (ofBytes bytes).toNat = fnv1a bytes :=
  (List.foldl_hom UInt64.toNat fun hash byte => (toNat_mix hash byte).symm).symm

end KeyHash

namespace Chain
variable {chain : Chain} {key : String} {r : Record} {i j : Nat}

theorem length_swapOut (h : i < chain.length) :
    (chain.swapOut i).length + 1 = List.length chain := by
  have hperm := swapOut_perm (List.getElem?_eq_getElem h)
  exact hperm.length_eq.symm

theorem getElem?_swapOut (h : j < (chain.swapOut i).length) :
    (chain.swapOut i)[j]? = if j = i then chain.getLast? else chain[j]? := by
  rw [swapOut] at h ⊢
  cases hlast : chain.getLast? with
  | none =>
    rw [hlast] at h
    cases h
  | some last =>
    rw [hlast] at h
    dsimp only at h ⊢
    rw [List.length_dropLast] at h
    rw [List.getElem?_dropLast, if_pos h, List.getElem?_set]
    rw [List.length_set] at h
    by_cases hij : i = j
    · have hlt : i < chain.length := by omega
      rw [if_pos hij, if_pos hij.symm, if_pos hlt]
    · rw [if_neg hij, if_neg fun hji => hij hji.symm]

theorem setValue_eq_set (h : chain.find? key = some r) (value : String) :
    chain.setValue key value = chain.set (chain.findIdx (·.key == key)) ⟨key, value⟩ := by
  induction chain with
  | nil => cases h
  | cons s chain ih =>
    rw [find?, List.find?_cons] at h
    rw [setValue, List.findIdx_cons]
    by_cases hkey : s.key = key
    · subst hkey
      rw [if_pos rfl, beq_self_eq_true]
      rfl
    · rw [beq_eq_false_iff_ne.mpr hkey] at h ⊢
      rw [if_neg hkey, ih h]
      rfl

end Chain

namespace ChainTable
variable {t t' : ChainTable} {key value old : String}

/-- The chain of a key has become another one, and all others are as they were. -/
def Rechained (t t' : ChainTable) (key : String) (chain : Chain) : Prop :=
  ∀ i, t'.chains[i]? = if i = t.index key then some chain else t.chains[i]?

theorem rechained_modify (h : t.WellFormed) (key : String) (f : Chain → Chain) (count : Nat) :
    Rechained t { t with chains := t.chains.modify (t.index key) f, count } key
      (f (t.chainOf key)) := by
  intro i
  rw [Array.getElem?_modify]
  by_cases hi : t.index key = i
  · rw [if_pos hi, if_pos hi.symm, ← hi, getElem?_index h key]
    rfl
  · rw [if_neg hi, if_neg fun hi' => hi hi'.symm]

theorem rechained_insert (h : t.WellFormed) (hinsert : t.insert key value = .ok t') :
    Rechained t t' key (t.chainOf key ++ [⟨key, value⟩]) := by
  obtain rfl := insert_eq_ok hinsert
  exact rechained_modify h key (· ++ [⟨key, value⟩]) (t.count + 1)

theorem getElem?_findIdx {chain : Chain} {r : Record} (h : chain.find? key = some r) :
    chain[chain.findIdx (·.key == key)]? = some ⟨key, r.value⟩ := by
  obtain ⟨-, rfl⟩ := Chain.find?_eq_some h
  rw [← List.find?_eq_getElem?_findIdx]
  exact h

theorem rechained_replace (h : t.WellFormed) (hreplace : t.replace key value = .ok (old, t')) :
    ∃ i, (t.chainOf key)[i]? = some ⟨key, old⟩ ∧
      Rechained t t' key ((t.chainOf key).set i ⟨key, value⟩) := by
  rw [replace] at hreplace
  cases hfind : t.find? key with
  | none =>
    rw [hfind] at hreplace
    cases hreplace
  | some r =>
    rw [hfind] at hreplace
    cases hreplace
    refine ⟨_, getElem?_findIdx hfind, ?_⟩
    rw [← Chain.setValue_eq_set hfind]
    exact rechained_modify h key (·.setValue key value) t.count

theorem rechained_erase (h : t.WellFormed) (herase : t.erase key = .ok (old, t')) :
    ∃ i, (t.chainOf key)[i]? = some ⟨key, old⟩ ∧ Rechained t t' key ((t.chainOf key).swapOut i) := by
  rw [erase] at herase
  cases hfind : (t.chainOf key).find? key with
  | none =>
    rw [hfind] at herase
    cases herase
  | some r =>
    rw [hfind] at herase
    cases herase
    exact ⟨_, getElem?_findIdx hfind, rechained_modify h key (·.swapOut _) (t.count - 1)⟩

theorem size_chains_perform (h : t.WellFormed) (call : Call) :
    (Table.perform t call).2.chains.size = t.chains.size := by
  cases call with
  | insert key value =>
    rw [Table.perform]
    cases hinsert : Table.insert t key value with
    | error cause => rfl
    | ok t' =>
      obtain rfl := insert_eq_ok hinsert
      exact Array.size_modify
  | replace key value =>
    rw [Table.perform]
    cases hreplace : Table.replace t key value with
    | error cause => rfl
    | ok found =>
      obtain ⟨old, t'⟩ := found
      obtain rfl := replace_eq_ok hreplace
      exact Array.size_modify
  | erase key =>
    rw [Table.perform]
    cases herase : Table.erase t key with
    | error cause => rfl
    | ok found =>
      obtain ⟨old, t'⟩ := found
      obtain rfl := erase_eq_ok herase
      exact Array.size_modify
  | get key => rfl
  | contains key => rfl
  | clear =>
    have hpos := h.chains_pos
    change (Array.replicate (max t.chains.size 1) ([] : Chain)).size = t.chains.size
    rw [Array.size_replicate]
    omega

theorem size_chains_after (h : t.WellFormed) (calls : List Call) :
    (Table.after t calls).chains.size = t.chains.size := by
  induction calls generalizing t with
  | nil => rfl
  | cons call calls ih =>
    have hsound : (Table.perform t call).2.WellFormed :=
      (LawfulTable.perform_keeps (t := t) h call).1
    exact (ih hsound).trans (size_chains_perform h call)

structure Chained (t : ChainTable) : Prop where
  index_eq : ∀ key, t.index key = KeyHash.fnv1a (KeyOrder.bytes key) % t.chains.size
  index_lt : ∀ key, t.index key < t.chains.size
  placed : ∀ i chain, t.chains[i]? = some chain → ∀ r ∈ chain, t.index r.key = i
  distinct : DistinctKeys (Table.toList t)
  size_eq : Table.size t = (t.chains.toList.map List.length).sum
  size_le : Table.size t ≤ Table.capacity t
  inserted : ∀ key value t', t.insert key value = .ok t' →
    Rechained t t' key (t.chainOf key ++ [⟨key, value⟩])
  replaced : ∀ key value old t', t.replace key value = .ok (old, t') →
    ∃ i, (t.chainOf key)[i]? = some ⟨key, old⟩ ∧
      Rechained t t' key ((t.chainOf key).set i ⟨key, value⟩)
  /-- The last record of the chain takes the place of the one taken out, and all others keep theirs. -/
  erased : ∀ key old t', t.erase key = .ok (old, t') →
    ∃ i chain, (t.chainOf key)[i]? = some ⟨key, old⟩ ∧ Rechained t t' key chain ∧
      chain.length + 1 = (t.chainOf key).length ∧
      ∀ j < chain.length, chain[j]? = if j = i then (t.chainOf key).getLast? else (t.chainOf key)[j]?
  cleared : ∀ i, t.clear.chains[i]? = if i < t.chains.size then some [] else none
  get?_eq_some_iff : ∀ key value, Table.get? t key = some value ↔ ⟨key, value⟩ ∈ Table.toList t
  nodup : (Table.toList t).Nodup

theorem WellFormed.chained (h : t.WellFormed) : t.Chained where
  index_eq key := by
    rw [index, KeyHash.ofKey, KeyHash.toNat_ofBytes]
    rfl
  index_lt key := Nat.mod_lt _ h.chains_pos
  placed := h.placed
  distinct := h.distinct
  size_eq := by
    have hlength : t.toList.length = (t.chains.toList.map List.length).sum := List.length_flatten
    exact h.count_eq.trans hlength
  size_le := h.count_le
  inserted _ _ _ := rechained_insert h
  replaced _ _ _ _ := rechained_replace h
  erased key old t' herase := by
    obtain ⟨i, hrecord, hchain⟩ := rechained_erase h herase
    obtain ⟨hi, -⟩ := List.getElem?_eq_some_iff.mp hrecord
    exact ⟨i, _, hrecord, hchain, Chain.length_swapOut hi, fun j => Chain.getElem?_swapOut⟩
  cleared i := by
    have hpos := h.chains_pos
    have hsize : max t.chains.size 1 = t.chains.size := by omega
    rw [clear, empty, hsize, Array.getElem?_replicate]
  get?_eq_some_iff := get?_eq_some_iff h
  nodup := h.distinct.nodup

/-- After any run of calls on any number of chains, none acting as one, the records are where the
hashes of their keys say, each once, and a look-up finds just these. -/
theorem chained_after (capacity chains : Nat) (calls : List Call) :
    let t := Table.after (empty capacity chains) calls
    t.chains.size = max chains 1 ∧ Table.capacity t = capacity ∧ t.Chained := by
  have hempty : (empty capacity chains).WellFormed := empty_wellFormed capacity chains
  obtain ⟨h, hcapacity⟩ := LawfulTable.after_keeps (t := empty capacity chains) hempty calls
  have hsize := size_chains_after hempty calls
  exact ⟨hsize.trans Array.size_replicate, hcapacity, WellFormed.chained h⟩

end ChainTable

end TriStore
