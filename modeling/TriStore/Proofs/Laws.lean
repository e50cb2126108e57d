import Mathlib.Data.List.Induction
import TriStore.Proofs.Contents
import TriStore.Table

/-!
# Laws of tables

A `BoundedMap` is a table without a layout: a finite map and the most records it may hold. The laws
of a table say what each call does to the list of its records. From them it follows, for runs of
any length, that a table answers like the bounded map of its records, whatever its layout, and that
tables of the same bounded map cannot be told apart.
-/

namespace TriStore

/-- A finite map that holds `capacity` records at most. -/
structure BoundedMap where
  capacity : Nat
  contents : Contents

namespace BoundedMap

def empty (capacity : Nat) : BoundedMap := ⟨capacity, ∅⟩

def insert (m : BoundedMap) (key value : String) : Except Refusal BoundedMap :=
  if key ∈ m.contents then .error .keyExists
  else if m.capacity ≤ m.contents.size then .error .storeFull
  else .ok { m with contents := m.contents.insert key value }

def replace (m : BoundedMap) (key value : String) : Except Refusal (String × BoundedMap) :=
  match m.contents[key]? with
  | some old => .ok (old, { m with contents := m.contents.insert key value })
  | none => .error .keyNotFound

def erase (m : BoundedMap) (key : String) : Except Refusal (String × BoundedMap) :=
  match m.contents[key]? with
  | some old => .ok (old, { m with contents := m.contents.erase key })
  | none => .error .keyNotFound

instance : Table BoundedMap where
  capacity := capacity
  size m := m.contents.size
  get? m key := m.contents[key]?
  insert := insert
  replace := replace
  erase := erase
  toList m := m.contents.toList.map fun (key, value) => ⟨key, value⟩
  clear m := { m with contents := ∅ }

end BoundedMap

def Call.removes : Call → Bool
  | erase _ | clear => true
  | insert _ _ | replace _ _ | get _ | contains _ => false

namespace Table
variable {τ : Type} [Table τ]

def after (t : τ) : List Call → τ
  | [] => t
  | call :: calls => after (perform t call).2 calls

def answers (t : τ) : List Call → List Answer
  | [] => []
  | call :: calls => (perform t call).1 :: answers (perform t call).2 calls

def Has (t : τ) (key : String) : Prop := ∃ r ∈ toList t, r.key = key

def bounded (t : τ) : BoundedMap := ⟨capacity t, .ofList (toList t)⟩

theorem mem_bounded_iff (t : τ) (key : String) : key ∈ (bounded t).contents ↔ Has t key :=
  Contents.mem_ofList_iff _ _

theorem getElem?_bounded_of_absent {t : τ} {key : String} (h : ¬ Has t key) :
    (bounded t).contents[key]? = none :=
  Std.ExtTreeMap.getElem?_eq_none fun hmem => h ((mem_bounded_iff t key).mp hmem)

/-- All that an insertion may lead to, where `P` holds of every new table. -/
inductive Inserts (P : τ → Prop) (t : τ) (key value : String) : Except Refusal τ → Prop where
  | done {t' : τ} : ¬ Has t key → size t < capacity t → P t' → capacity t' = capacity t →
      (toList t').Perm (⟨key, value⟩ :: toList t) → Inserts P t key value (.ok t')
  | present : Has t key → Inserts P t key value (.error .keyExists)
  | full : ¬ Has t key → capacity t ≤ size t → Inserts P t key value (.error .storeFull)

inductive Replaces (P : τ → Prop) (t : τ) (key value : String) :
    Except Refusal (String × τ) → Prop where
  | done {old : String} {t' : τ} {rest : List Record} : P t' → capacity t' = capacity t →
      (toList t).Perm (⟨key, old⟩ :: rest) → (toList t').Perm (⟨key, value⟩ :: rest) →
      Replaces P t key value (.ok (old, t'))
  | absent : ¬ Has t key → Replaces P t key value (.error .keyNotFound)

inductive Erases (P : τ → Prop) (t : τ) (key : String) : Except Refusal (String × τ) → Prop where
  | done {old : String} {t' : τ} : P t' → capacity t' = capacity t →
      (toList t).Perm (⟨key, old⟩ :: toList t') → Erases P t key (.ok (old, t'))
  | absent : ¬ Has t key → Erases P t key (.error .keyNotFound)

/-- A size that a run has reached since its start, or since the last time the table was cleared. -/
def ReachedSize (t : τ) (calls : List Call) (n : Nat) : Prop :=
  ∃ before since, calls = before ++ since ∧ Call.clear ∉ since ∧ size (after t before) = n

theorem after_append (t : τ) (calls more : List Call) :
    after t (calls ++ more) = after (after t calls) more := by
  induction calls generalizing t with
  | nil => rfl
  | cons call calls ih => exact ih _

theorem after_concat (t : τ) (calls : List Call) (call : Call) :
    after t (calls ++ [call]) = (perform (after t calls) call).2 :=
  after_append t calls [call]

theorem reachedSize_nil {t : τ} {n : Nat} : ReachedSize t [] n ↔ size t = n := by
  constructor
  · rintro ⟨before, since, hsplit, -, hn⟩
    obtain ⟨rfl, rfl⟩ := List.nil_eq_append_iff.mp hsplit
    exact hn
  · intro hn
    exact ⟨[], [], rfl, List.not_mem_nil, hn⟩

theorem reachedSize_concat {t : τ} {calls : List Call} {call : Call} {n : Nat} :
    ReachedSize t (calls ++ [call]) n ↔
      size (perform (after t calls) call).2 = n ∨ call ≠ .clear ∧ ReachedSize t calls n := by
  rw [← after_concat]
  constructor
  · rintro ⟨before, since, hsplit, hclear, hn⟩
    rcases List.eq_nil_or_concat since with rfl | ⟨since, last, rfl⟩
    · rw [List.append_nil] at hsplit
      exact Or.inl (hsplit ▸ hn)
    · rw [List.concat_eq_append, ← List.append_assoc] at hsplit
      obtain ⟨rfl, rfl⟩ := List.append_singleton_inj.mp hsplit
      rw [List.concat_eq_append, List.mem_append, List.mem_singleton, not_or] at hclear
      exact Or.inr ⟨fun hcall => hclear.2 hcall.symm, before, since, rfl, hclear.1, hn⟩
  · rintro (hn | ⟨hcall, before, since, rfl, hclear, hn⟩)
    · exact ⟨calls ++ [call], [], (List.append_nil _).symm, List.not_mem_nil, hn⟩
    · refine ⟨before, since ++ [call], List.append_assoc _ _ _, ?_, hn⟩
      rw [List.mem_append, List.mem_singleton, not_or]
      exact ⟨hclear, hcall.symm⟩

theorem exists_largestSize (t : τ) (calls : List Call) :
    ∃ n, ReachedSize t calls n ∧ ∀ m, ReachedSize t calls m → m ≤ n := by
  induction calls using List.reverseRecOn with
  | nil =>
    refine ⟨size t, reachedSize_nil.mpr rfl, fun m hm => ?_⟩
    exact Nat.le_of_eq (reachedSize_nil.mp hm).symm
  | append_singleton calls call ih =>
    obtain ⟨n, hn, hmax⟩ := ih
    simp only [reachedSize_concat]
    generalize size (perform (after t calls) call).2 = last
    by_cases hcall : call = .clear
    · refine ⟨last, Or.inl rfl, ?_⟩
      rintro m (rfl | ⟨hclear, -⟩)
      · exact Nat.le_refl _
      · exact absurd hcall hclear
    · refine ⟨max n last, ?_, ?_⟩
      · rcases Nat.le_total n last with hle | hle
        · exact Or.inl (Nat.max_eq_right hle).symm
        · exact Or.inr ⟨hcall, (Nat.max_eq_left hle).symm ▸ hn⟩
      · rintro m (rfl | ⟨-, hm⟩)
        · exact Nat.le_max_right _ _
        · exact Nat.le_trans (hmax m hm) (Nat.le_max_left _ _)

/-- Two tables that nothing but the order of their records tells apart. -/
structure Agree {τ σ : Type} [Table τ] [Table σ] (t : τ) (u : σ) : Prop where
  size_eq : size t = size u
  remaining_eq : remaining t = remaining u
  isEmpty_eq : isEmpty t = isEmpty u
  isFull_eq : isFull t = isFull u
  toList_perm : (toList t).Perm (toList u)

end Table

open Table

/-- The laws of tables. They hold of the sound tables, and calls lead from sound tables to sound
ones. -/
class LawfulTable (τ : Type) [Table τ] where
  Sound : τ → Prop
  distinct {t : τ} : Sound t → DistinctKeys (toList t)
  size_eq {t : τ} : Sound t → size t = (toList t).length
  size_le {t : τ} : Sound t → size t ≤ capacity t
  get?_eq_some_iff {t : τ} : Sound t → ∀ key value,
    get? t key = some value ↔ ⟨key, value⟩ ∈ toList t
  inserts {t : τ} : Sound t → ∀ key value, Inserts Sound t key value (insert t key value)
  replaces {t : τ} : Sound t → ∀ key value, Replaces Sound t key value (replace t key value)
  erases {t : τ} : Sound t → ∀ key, Erases Sound t key (erase t key)
  clear_sound {t : τ} : Sound t → Sound (clear t)
  capacity_clear (t : τ) : capacity (clear t) = capacity t
  toList_clear (t : τ) : toList (clear t) = []

namespace LawfulTable
variable {τ : Type} [Table τ] [LawfulTable τ] {t : τ}

theorem insert_eq_full_iff (h : Sound t) (key value : String) :
    insert t key value = .error .storeFull ↔ ¬ Has t key ∧ size t = capacity t := by
  have hle := size_le h
  have hinserts := inserts h key value
  generalize insert t key value = result at hinserts
  cases hinserts with
  | done hnew hroom ht' hcap hp => exact ⟨nofun, fun ⟨_, hfull⟩ => absurd hfull (by omega)⟩
  | present hold => exact ⟨nofun, fun ⟨hnew, _⟩ => absurd hold hnew⟩
  | full hnew hfull => exact ⟨fun _ => ⟨hnew, Nat.le_antisymm hle hfull⟩, fun _ => rfl⟩

theorem size_bounded (h : Sound t) : size (bounded t) = size t := by
  rw [size_eq h]
  exact Contents.size_ofList (distinct h)

theorem get?_bounded (h : Sound t) (key : String) : get? (bounded t) key = get? t key := by
  apply Option.ext
  intro value
  rw [get?_eq_some_iff h]
  exact Contents.getElem?_ofList_eq_some_iff (distinct h) key value

theorem getElem?_bounded_of_perm {key old : String} {rest : List Record} (h : Sound t)
    (hp : (toList t).Perm (⟨key, old⟩ :: rest)) : (bounded t).contents[key]? = some old :=
  (Contents.getElem?_ofList_eq_some_iff (distinct h) key old).mpr
    (hp.mem_iff.mpr List.mem_cons_self)

theorem insert_bounded (h : Sound t) (key value : String) :
    insert (bounded t) key value = (insert t key value).map bounded := by
  have hsize : (bounded t).contents.size = size t := size_bounded h
  have hcapacity : (bounded t).capacity = capacity t := rfl
  have hinserts := inserts h key value
  change BoundedMap.insert (bounded t) key value = _
  generalize insert t key value = result at hinserts
  cases hinserts with
  | @done t' hnew hroom ht' hcap hp =>
    have hcontents := Contents.ofList_perm (distinct ht') hp
    rw [BoundedMap.insert, if_neg (mt (mem_bounded_iff t key).mp hnew), hsize, hcapacity,
      if_neg (Nat.not_le.mpr hroom)]
    simp only [Except.map, bounded, hcap, hcontents]
    rfl
  | present hold =>
    rw [BoundedMap.insert, if_pos ((mem_bounded_iff t key).mpr hold)]
    rfl
  | full hnew hfull =>
    rw [BoundedMap.insert, if_neg (mt (mem_bounded_iff t key).mp hnew), hsize, hcapacity,
      if_pos hfull]
    rfl

theorem replace_bounded (h : Sound t) (key value : String) :
    replace (bounded t) key value = (replace t key value).map fun (old, t') => (old, bounded t') := by
  have hreplaces := replaces h key value
  change BoundedMap.replace (bounded t) key value = _
  generalize replace t key value = result at hreplaces
  cases hreplaces with
  | @done old t' rest ht' hcap hp hp' =>
    have hcontents := Contents.ofList_perm (distinct ht') hp'
    rw [Contents.ofList_cons_insert key old, ← Contents.ofList_perm (distinct h) hp] at hcontents
    rw [BoundedMap.replace, getElem?_bounded_of_perm h hp]
    simp only [Except.map, bounded, hcap, hcontents]
  | absent hnew =>
    rw [BoundedMap.replace, getElem?_bounded_of_absent hnew]
    rfl

theorem erase_bounded (h : Sound t) (key : String) :
    erase (bounded t) key = (erase t key).map fun (old, t') => (old, bounded t') := by
  have herases := erases h key
  change BoundedMap.erase (bounded t) key = _
  generalize erase t key = result at herases
  cases herases with
  | @done old t' ht' hcap hp =>
    have hcontents := Contents.ofList_cons_erase ((distinct h).perm hp)
    rw [← Contents.ofList_perm (distinct h) hp] at hcontents
    rw [BoundedMap.erase, getElem?_bounded_of_perm h hp]
    simp only [Except.map, bounded, hcap, hcontents]
  | absent hnew =>
    rw [BoundedMap.erase, getElem?_bounded_of_absent hnew]
    rfl

theorem clear_bounded (t : τ) : clear (bounded t) = bounded (clear t) := by
  simp only [bounded, capacity_clear, toList_clear]
  rfl

/-- One call: the bounded map gives the table's answer, and stands for the table after it. -/
theorem perform_bounded (h : Sound t) (call : Call) :
    perform (bounded t) call = ((perform t call).1, bounded (perform t call).2) := by
  cases call with
  | insert key value =>
    simp only [perform, insert_bounded h]
    cases insert t key value <;> rfl
  | replace key value =>
    simp only [perform, replace_bounded h]
    cases replace t key value <;> rfl
  | erase key =>
    simp only [perform, erase_bounded h]
    cases erase t key <;> rfl
  | get key => simp only [perform, get?_bounded h]
  | contains key => simp only [perform, contains, get?_bounded h]
  | clear => simp only [perform, clear_bounded]

/-- One call leads to a sound table of the same capacity. -/
theorem perform_keeps (h : Sound t) (call : Call) :
    Sound (perform t call).2 ∧ capacity (perform t call).2 = capacity t := by
  cases call with
  | insert key value =>
    have hinserts := inserts h key value
    simp only [perform]
    generalize insert t key value = result at hinserts
    cases hinserts with
    | done _ _ ht' hcap _ => exact ⟨ht', hcap⟩
    | present => exact ⟨h, rfl⟩
    | full => exact ⟨h, rfl⟩
  | replace key value =>
    have hreplaces := replaces h key value
    simp only [perform]
    generalize replace t key value = result at hreplaces
    cases hreplaces with
    | done ht' hcap _ _ => exact ⟨ht', hcap⟩
    | absent => exact ⟨h, rfl⟩
  | erase key =>
    have herases := erases h key
    simp only [perform]
    generalize erase t key = result at herases
    cases herases with
    | done ht' hcap _ => exact ⟨ht', hcap⟩
    | absent => exact ⟨h, rfl⟩
  | get => exact ⟨h, rfl⟩
  | contains => exact ⟨h, rfl⟩
  | clear => exact ⟨clear_sound h, capacity_clear t⟩

theorem after_keeps (h : Sound t) (calls : List Call) :
    Sound (after t calls) ∧ capacity (after t calls) = capacity t := by
  induction calls generalizing t with
  | nil => exact ⟨h, rfl⟩
  | cons call calls ih =>
    obtain ⟨hsound, hcap⟩ := perform_keeps h call
    exact ⟨(ih hsound).1, (ih hsound).2.trans hcap⟩

theorem after_bounded (h : Sound t) (calls : List Call) :
    after (bounded t) calls = bounded (after t calls) := by
  induction calls generalizing t with
  | nil => rfl
  | cons call calls ih =>
    simp only [after, perform_bounded h]
    exact ih (perform_keeps h call).1

theorem answers_bounded (h : Sound t) (calls : List Call) :
    answers (bounded t) calls = answers t calls := by
  induction calls generalizing t with
  | nil => rfl
  | cons call calls ih =>
    simp only [answers, perform_bounded h]
    rw [ih (perform_keeps h call).1]

section Agreement
variable {σ : Type} [Table σ] [LawfulTable σ] {u : σ}

theorem agree_of_bounded_eq (ht : Sound t) (hu : Sound u) (h : bounded t = bounded u) :
    Agree t u := by
  have hcapacity : capacity t = capacity u := congrArg BoundedMap.capacity h
  have hsize : size t = size u := by
    rw [← size_bounded ht, ← size_bounded hu, h]
  refine ⟨hsize, ?_, ?_, ?_, ?_⟩
  · rw [remaining, remaining, hsize, hcapacity]
  · rw [isEmpty, isEmpty, hsize]
  · rw [isFull, isFull, hsize, hcapacity]
  · rw [List.perm_ext_iff_of_nodup (distinct ht).nodup (distinct hu).nodup]
    intro r
    rw [← get?_eq_some_iff ht, ← get?_eq_some_iff hu, ← get?_bounded ht, ← get?_bounded hu, h]

/-- Runs of calls do not tell such tables apart, and leave them indistinguishable. -/
theorem runs_agree (ht : Sound t) (hu : Sound u) (h : bounded t = bounded u)
    (calls : List Call) :
    answers t calls = answers u calls ∧ Agree (after t calls) (after u calls) := by
  constructor
  · rw [← answers_bounded ht, ← answers_bounded hu, h]
  · apply agree_of_bounded_eq (after_keeps ht calls).1 (after_keeps hu calls).1
    rw [← after_bounded ht, ← after_bounded hu, h]

end Agreement

end LawfulTable

end TriStore
