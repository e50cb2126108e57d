import Mathlib.Data.Set.Card
import TriStore.Proofs.Cells
import TriStore.Proofs.Serving

/-!
# What the counters count

Each record that is set adds one to the count of its table and each one that is deleted takes one
off, and nothing else moves it. So count and remaining room follow from the answers given, and of
requests that set keys just those are granted that fit, in whichever order they come.
-/

namespace TriStore

theorem Config.le_maxCapacity {c : Config} (h : c.validate = .ok ()) (target : Target) :
    c.capacity target ≤ maxCapacity := by
  unfold validate at h
  split at h
  · cases h
  · next hnone =>
    rw [List.findSome?_eq_none_iff] at hnone
    have hsize (size : String × Nat) (hmem : size ∈ c.sizes) : size.2 ≤ maxCapacity := by
      have hcheck := hnone size hmem
      unfold checkSize at hcheck
      split at hcheck
      · cases hcheck
      · split at hcheck
        · cases hcheck
        · omega
    cases target with
    | array => exact hsize ("array_capacity", c.arrayCapacity) (by simp [sizes])
    | hash => exact hsize ("hash_capacity", c.hashCapacity) (by simp [sizes])
    | tree => exact hsize ("rbtree_capacity", c.treeCapacity) (by simp [sizes])

/-- Whether a request is a well-formed one that asks a verb of a table. -/
def Request.calls (target : Target) (verb : Verb) (r : Request) : Bool :=
  match r.parse with
  | .ok (asked, command) => asked = target ∧ command.verb = verb
  | .error _ => false

namespace LawfulTable
variable {τ : Type} [Table τ] [LawfulTable τ] {t : τ}

theorem get?_eq_none_iff (h : Sound t) (key : String) :
    Table.get? t key = none ↔ ¬ Table.Has t key := by
  rw [Option.eq_none_iff_forall_ne_some]
  constructor
  · rintro hnone ⟨r, hr, rfl⟩
    exact hnone r.value ((get?_eq_some_iff h r.key r.value).mpr hr)
  · intro habsent value hvalue
    exact habsent ⟨_, (get?_eq_some_iff h key value).mp hvalue, rfl⟩

/-- A record that was set adds one to the size, one that was deleted takes one off. -/
theorem size_perform (h : Sound t) (target : Target) (command : Command) :
    let status := (Response.ofAnswer target command (Table.perform t command.call).1).status
    let after := Table.size (Table.perform t command.call).2
    command.verb = .set ∧ status = .ok ∧ after = Table.size t + 1 ∨
      command.verb = .del ∧ status = .ok ∧ after + 1 = Table.size t ∨
      (command.verb = .set ∨ command.verb = .del → status ≠ .ok) ∧ after = Table.size t := by
  have hrefused (cause : Refusal) : (Response.ofError (.refused cause) target).status ≠ .ok := by
    intro hok
    cases cause <;> cases hok
  cases command with
  | set key value =>
    have hinserts := inserts h key value
    simp only [Command.call, Table.perform]
    generalize Table.insert t key value = result at hinserts
    cases hinserts with
    | done hnew hroom ht' hcap hp =>
      have hlength := hp.length_eq
      rw [List.length_cons, ← size_eq h, ← size_eq ht'] at hlength
      exact Or.inl ⟨rfl, rfl, hlength⟩
    | present => exact Or.inr (Or.inr ⟨fun _ => hrefused .keyExists, rfl⟩)
    | full => exact Or.inr (Or.inr ⟨fun _ => hrefused .storeFull, rfl⟩)
  | del key =>
    have herases := erases h key
    simp only [Command.call, Table.perform]
    generalize Table.erase t key = result at herases
    cases herases with
    | done ht' hcap hp =>
      have hlength := hp.length_eq
      rw [List.length_cons, ← size_eq h, ← size_eq ht'] at hlength
      exact Or.inr (Or.inl ⟨rfl, rfl, hlength.symm⟩)
    | absent => exact Or.inr (Or.inr ⟨fun _ => hrefused .keyNotFound, rfl⟩)
  | update key value =>
    have hreplaces := replaces h key value
    simp only [Command.call, Table.perform]
    generalize Table.replace t key value = result at hreplaces
    cases hreplaces with
    | done ht' hcap hp hp' =>
      have hlength := hp.length_eq
      have hlength' := hp'.length_eq
      rw [List.length_cons, ← size_eq h] at hlength
      rw [List.length_cons, ← size_eq ht', ← hlength] at hlength'
      exact Or.inr (Or.inr ⟨by simp [Command.verb], hlength'⟩)
    | absent => exact Or.inr (Or.inr ⟨by simp [Command.verb], rfl⟩)
  | get key => exact Or.inr (Or.inr ⟨by simp [Command.verb], rfl⟩)
  | exist key => exact Or.inr (Or.inr ⟨by simp [Command.verb], rfl⟩)

end LawfulTable

namespace Store

/-- How many of some requests ask a verb of a table and are answered OK. -/
def granted (s : Store) (requests : List Request) (target : Target) (verb : Verb) : Nat :=
  (requests.zip (s.responses requests)).countP fun p => p.1.calls target verb && p.2.isOk

variable {c : Config} {s : Store} {target : Target}

theorem granted_cons (s : Store) (r : Request) (requests : List Request) (target : Target)
    (verb : Verb) : s.granted (r :: requests) target verb =
      (s.execute r).2.granted requests target verb +
        if r.calls target verb && (s.execute r).1.isOk then 1 else 0 := by
  simp only [granted, responses, List.zip_cons_cons, List.countP_cons]

theorem usage_eq (s : Store) (target : Target) :
    s.usage target = .ofTable (s.table target) := by
  cases target <;> rfl

theorem count_eq (s : Store) (target : Target) :
    (s.usage target).count = Table.size (s.table target) := by
  rw [usage_eq, Usage.ofTable]

theorem Reachable.valid (h : Reachable c s) : c.validate = .ok () := by
  induction h with
  | new h =>
    unfold ofConfig at h
    cases hvalid : c.validate with
    | error invalid =>
      rw [hvalid] at h
      cases h
    | ok => rfl
  | act a _ ih => exact ih

theorem count_execute (h : Sound c s) (r : Request) (target : Target) :
    ((s.execute r).2.usage target).count +
        (if r.calls target .del && (s.execute r).1.isOk then 1 else 0) =
      (s.usage target).count + if r.calls target .set && (s.execute r).1.isOk then 1 else 0 := by
  rw [count_eq, count_eq]
  cases hparse : r.parse with
  | error malformed =>
    have hcalls (verb : Verb) : r.calls target verb = false := by rw [Request.calls, hparse]
    simp [hcalls, execute_of_error s hparse]
  | ok parsed =>
    obtain ⟨asked, command⟩ := parsed
    have hcalls (verb : Verb) : r.calls target verb = decide (asked = target ∧ command.verb = verb) :=
      by rw [Request.calls, hparse]
    rw [execute_of_ok s asked hparse]
    by_cases hasked : asked = target
    · subst hasked
      rw [table_setTable]
      simp only [hcalls, Response.isOk, Response.withStats]
      rcases LawfulTable.size_perform (h asked).1 asked command with
        ⟨hverb, hstatus, hsize⟩ | ⟨hverb, hstatus, hsize⟩ | ⟨hstatus, hsize⟩
      · simp [hverb, hstatus, hsize]
      · simp [hverb, hstatus, hsize]
      · have hset := fun hverb : command.verb = .set => hstatus (Or.inl hverb)
        have hdel := fun hverb : command.verb = .del => hstatus (Or.inr hverb)
        rw [← not_and] at hset hdel
        simp [hsize, hset, hdel]
    · rw [table_setTable_of_ne s asked (Ne.symm hasked)]
      simp [hcalls, hasked]

/-- The count after some requests follows from their answers. -/
theorem count_served (h : Reachable c s) (requests : List Request) (target : Target) :
    ((s.served requests).usage target).count + s.granted requests target .del =
      (s.usage target).count + s.granted requests target .set := by
  induction requests generalizing s with
  | nil => simp only [served, granted, responses, List.zip_nil_left, List.countP_nil]
  | cons r requests ih =>
    have hrest := ih (h.act (.execute r))
    have hfirst := count_execute h.sound r target
    rw [act] at hrest
    rw [served, granted_cons, granted_cons]
    omega

/-- What the stats say of a table is what it holds. -/
structure Exact (c : Config) (target : Target) (s : Store) : Prop where
  found_eq : {key | (s.get? target key).isSome}.encard = (s.usage target).count
  listed_eq : (s.toList target).length = (s.usage target).count
  count_le : (s.usage target).count ≤ (s.usage target).max
  room_eq : (s.usage target).remaining + (s.usage target).count = (s.usage target).max
  max_eq : (s.usage target).max = c.capacity target
  max_le : (s.usage target).max ≤ Config.maxCapacity

theorem found_eq_keys (h : Sound c s) (target : Target) :
    {key | (s.get? target key).isSome} = ((s.toList target).map (·.key)).toFinset := by
  ext key
  have hnone := LawfulTable.get?_eq_none_iff (h target).1 key
  rw [Set.mem_ofPred_eq, Finset.mem_coe, List.mem_toFinset, List.mem_map, get?_eq, toList_eq,
    ← Option.ne_none_iff_isSome, Ne, hnone, not_not, Table.Has]

theorem Reachable.exact (h : Reachable c s) (target : Target) : Exact c target s := by
  obtain ⟨hsound, hcapacity⟩ := h.sound target
  have hsize := LawfulTable.size_eq hsound
  have hle := LawfulTable.size_le hsound
  have hlisted : (s.toList target).length = (s.usage target).count := by
    rw [count_eq, hsize, toList_eq]
  refine ⟨?_, hlisted, ?_, ?_, ?_, ?_⟩
  · rw [found_eq_keys h.sound, Set.encard_coe_eq_coe_finsetCard,
      List.toFinset_card_of_nodup (h.sound.distinct target), List.length_map, hlisted]
  · rw [usage_eq, Usage.ofTable]
    exact hle
  · simp only [usage_eq, Usage.ofTable, Table.remaining]
    omega
  · rw [usage_eq, Usage.ofTable, hcapacity]
  · rw [usage_eq, Usage.ofTable, hcapacity]
    exact Config.le_maxCapacity h.valid target

def newKeys (s : Store) (target : Target) (requests : List Request) : Finset String :=
  (requests.filterMap fun r => r.cell?.map (·.2)).toFinset.filter (s.get? target · = none)

theorem newKeys_perm (s : Store) (target : Target) {requests others : List Request}
    (h : requests.Perm others) : s.newKeys target requests = s.newKeys target others := by
  rw [newKeys, newKeys, List.toFinset_eq_of_perm _ _ (h.filterMap _)]

/-- What a request that sets a key comes to: it is the key of a record, or there is no room, or it is
a new key that takes up room. -/
theorem execute_set (h : Sound c s) {r : Request} (hr : r.sets target = true) :
    ∃ key, r.cell? = some (target, key) ∧
      ((s.execute r).1.isOk = false ∧ (s.execute r).2 = s ∧
          (s.get? target key ≠ none ∨ (s.usage target).remaining = 0) ∨
        (s.execute r).1.isOk = true ∧ s.get? target key = none ∧
          ((s.execute r).2.usage target).remaining + 1 = (s.usage target).remaining ∧
          ∀ other, (s.execute r).2.get? target other = none ↔
            other ≠ key ∧ s.get? target other = none) := by
  obtain ⟨hsound, hcapacity⟩ := h target
  unfold Request.sets at hr
  cases hparse : r.parse with
  | error malformed =>
    rw [hparse] at hr
    cases hr
  | ok parsed =>
    obtain ⟨asked, command⟩ := parsed
    rw [hparse] at hr
    obtain ⟨rfl, hverb⟩ : asked = target ∧ command.verb = .set := by simpa using hr
    cases command with
    | set key value =>
      refine ⟨key, Cells.cell?_of_ok hparse, ?_⟩
      have hinserts := LawfulTable.inserts hsound key value
      rw [execute_of_ok s asked hparse, Command.call, Table.perform]
      simp only [get?_eq, usage_eq, table_setTable, Usage.ofTable, Table.remaining, ne_eq,
        LawfulTable.get?_eq_none_iff hsound, not_not]
      generalize Table.insert (s.table asked) key value = result at hinserts
      cases hinserts with
      | done hnew hroom ht' hcap hp =>
        have hlength := hp.length_eq
        rw [List.length_cons, ← LawfulTable.size_eq hsound, ← LawfulTable.size_eq ht'] at hlength
        refine Or.inr ⟨rfl, hnew, ?_, fun other => ?_⟩
        · dsimp only
          omega
        · rw [LawfulTable.get?_eq_none_iff ht', Table.Has, Table.Has]
          simp only [hp.mem_iff, List.mem_cons, exists_eq_or_imp, not_or, eq_comm (a := key)]
      | present hold => exact Or.inl ⟨rfl, setTable_table s asked, Or.inl hold⟩
      | full hnew hfull =>
        exact Or.inl ⟨rfl, setTable_table s asked, Or.inr (Nat.sub_eq_zero_of_le hfull)⟩
    | get | del | update | exist => cases hverb

/-- Of requests that set keys of one table, those for new keys are granted until it is full. -/
theorem countP_isOk_sets (h : Reachable c s) {requests : List Request}
    (hsets : ∀ r ∈ requests, r.sets target = true) :
    (s.responses requests).countP (·.isOk) =
      min (s.newKeys target requests).card (s.usage target).remaining := by
  induction requests generalizing s with
  | nil => simp [responses, newKeys]
  | cons r requests ih =>
    have hrest := ih (h.act (.execute r)) fun r' hr' => hsets r' (List.mem_cons_of_mem _ hr')
    rw [act] at hrest
    obtain ⟨key, hcell, hset⟩ := execute_set h.sound (hsets r List.mem_cons_self)
    have hkeys : s.newKeys target (r :: requests) =
        if s.get? target key = none then Insert.insert key (s.newKeys target requests)
        else s.newKeys target requests := by
      simp only [newKeys, List.filterMap_cons, hcell, Option.map_some, List.toFinset_cons,
        Finset.filter_insert]
    rw [responses, List.countP_cons, hrest, hkeys]
    rcases hset with ⟨hok, hsame, hheld | hfull⟩ | ⟨hok, hnew, hroom, hget⟩
    · rw [hok, hsame, if_neg hheld]
      simp
    · rw [hok, hsame, hfull]
      simp
    · have hafter : (s.execute r).2.newKeys target requests =
          (s.newKeys target requests).erase key := by
        ext other
        simp only [newKeys, Finset.mem_filter, Finset.mem_erase, hget]
        exact and_left_comm
      rw [hok, if_pos hnew, hafter, ← hroom]
      have hcard := Finset.card_erase_add_one
        (Finset.mem_insert_self key (s.newKeys target requests))
      rw [Finset.erase_insert_eq_erase] at hcard
      rw [← hcard, if_pos rfl]
      omega

/-- Whatever requests are executed, a count is the one at the start with what was set and without what
was deleted, as the answers tell, and it is exact at every time. Of requests that set keys of one table
as many are granted as there are new keys among them, or as there is room, in every order. -/
theorem capacity_accounted (h : Reachable c s) (requests : List Request) (target : Target) :
    (∀ before after, requests = before ++ after →
      ((s.served before).usage target).count + s.granted before target .del =
          (s.usage target).count + s.granted before target .set ∧
        Exact c target (s.served before)) ∧
      ((∀ r ∈ requests, r.sets target = true) → ∀ order : List Request, order.Perm requests →
        (s.responses order).countP (·.isOk) =
          min (s.newKeys target requests).card (s.usage target).remaining) := by
  constructor
  · rintro before after rfl
    exact ⟨count_served h before target, (h.served before).exact target⟩
  · intro hsets order hperm
    rw [countP_isOk_sets h fun r hr => hsets r (hperm.subset hr), newKeys_perm s target hperm]

/-- Four requests for three keys of an array with room for two, the last of them first. -/
theorem capacity_accounted_of_four :
    let set (key : String) : Request := ⟨"SET", some key, some "1", none⟩
    ∃ s, Reachable (.uniform 2) s ∧ ([set "c", set "a", set "b", set "a"].Perm
      [set "a", set "b", set "a", set "c"]) ∧
      (s.responses [set "c", set "a", set "b", set "a"]).countP (·.isOk) = min 3 2 := by
  intro set
  have hnew : ofConfig (.uniform 2) = .ok ⟨.empty 2, .empty 2 2, .empty 2⟩ := rfl
  have hperm : [set "c", set "a", set "b", set "a"].Perm [set "a", set "b", set "a", set "c"] := by
    decide +kernel
  have hgranted := (capacity_accounted (.new hnew) [set "a", set "b", set "a", set "c"] .array).2
    (by decide +kernel) _ hperm
  have hkeys : (newKeys ⟨.empty 2, .empty 2 2, .empty 2⟩ .array
      [set "a", set "b", set "a", set "c"]).card = 3 := by decide +kernel
  have hroom : (usage ⟨.empty 2, .empty 2 2, .empty 2⟩ .array).remaining = 2 := rfl
  rw [hkeys, hroom] at hgranted
  exact ⟨_, .new hnew, hperm, hgranted⟩

end Store

end TriStore
