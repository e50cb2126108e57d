import TriStore.Proofs.Store

/-!
# Requests and what they come to

A malformed request is reported and changes nothing. What a well-formed one comes to is decided by
the records of its own table and by how many that table can hold; the layout matters for nothing but
the layout afterwards.
-/

namespace TriStore

namespace Command

def statusOn (contents : Contents) (max : Nat) : Command → Status
  | set key _ =>
    if key ∈ contents then .exist else if contents.size = max then .full else .ok
  | get key | del key | update key _ => if key ∈ contents then .ok else .noExist
  | exist key => if key ∈ contents then .exist else .noExist

def contentsAfter (contents : Contents) (max : Nat) : Command → Contents
  | set key value =>
    if key ∈ contents ∨ contents.size = max then contents else contents.insert key value
  | update key value => if key ∈ contents then contents.insert key value else contents
  | del key => if key ∈ contents then contents.erase key else contents
  | get _ | exist _ => contents

def valueOn (contents : Contents) : Command → Option String
  | get key => contents[key]?
  | set _ _ | del _ | update _ _ | exist _ => none

theorem statusOn_ne_error (contents : Contents) (max : Nat) (command : Command) :
    command.statusOn contents max ≠ .error := by
  cases command with
  | set key value =>
    rw [statusOn]
    split
    · decide
    · split <;> decide
  | _ =>
    rw [statusOn]
    split <;> decide

theorem valueOn_isSome_iff (contents : Contents) (max : Nat) (command : Command) :
    (command.valueOn contents).isSome = true ↔
      command.verb = .get ∧ command.statusOn contents max = .ok := by
  cases command with
  | get key =>
    rw [valueOn, statusOn, ← Std.ExtTreeMap.mem_iff_isSome_getElem?]
    by_cases hkey : key ∈ contents
    · simp [hkey, verb]
    · simp [hkey]
  | _ => simp [valueOn, verb]

end Command

namespace Response

theorem message_ofAnswer {target : Target} {command : Command} {answer : Answer} {value : String}
    (h : (ofAnswer target command answer).value = some value) :
    (ofAnswer target command answer).message = value := by
  have hrefused (cause : Refusal) : (ofError (.refused cause) target).value = none := by
    cases cause <;> rfl
  unfold ofAnswer at h ⊢
  split at h
  · cases h
  · exact Option.some.inj h
  · cases h
  · cases h
  · cases h
  · rw [hrefused] at h
    cases h
  · rw [hrefused] at h
    cases h

/-- The records and the capacity decide status and value, and the records afterwards. -/
theorem ofAnswer_bounded {m : BoundedMap} (h : m.contents.size ≤ m.capacity) (target : Target)
    (command : Command) :
    let response := ofAnswer target command (Table.perform m command.call).1
    response.status = command.statusOn m.contents m.capacity ∧
      response.value = command.valueOn m.contents ∧
      (Table.perform m command.call).2.contents = command.contentsAfter m.contents m.capacity := by
  have hmem (key : String) : key ∈ m.contents ↔ m.contents[key]?.isSome = true :=
    Std.ExtTreeMap.mem_iff_isSome_getElem?
  cases command with
  | set key value =>
    rw [Command.call, Command.statusOn, Command.contentsAfter, Table.perform]
    by_cases hkey : key ∈ m.contents
    · have hinsert : Table.insert m key value = .error .keyExists := if_pos hkey
      rw [hinsert, if_pos hkey, if_pos (Or.inl hkey)]
      exact ⟨rfl, rfl, rfl⟩
    · by_cases hfull : m.contents.size = m.capacity
      · have hinsert : Table.insert m key value = .error .storeFull :=
          (if_neg hkey).trans (if_pos (Nat.le_of_eq hfull.symm))
        rw [hinsert, if_neg hkey, if_pos hfull, if_pos (Or.inr hfull)]
        exact ⟨rfl, rfl, rfl⟩
      · have hroom : ¬ m.capacity ≤ m.contents.size := by omega
        have hinsert : Table.insert m key value = .ok ⟨m.capacity, m.contents.insert key value⟩ :=
          (if_neg hkey).trans (if_neg hroom)
        rw [hinsert, if_neg hkey, if_neg hfull, if_neg (not_or.mpr ⟨hkey, hfull⟩)]
        exact ⟨rfl, rfl, rfl⟩
  | get key =>
    rw [Command.call, Command.statusOn, Command.contentsAfter, Command.valueOn, Table.perform]
    have hget : Table.get? m key = m.contents[key]? := rfl
    rw [hget]
    simp only [hmem, and_true]
    cases m.contents[key]? <;> exact ⟨rfl, rfl⟩
  | del key =>
    rw [Command.call, Command.statusOn, Command.contentsAfter, Table.perform]
    have herase : Table.erase m key = m.erase key := rfl
    rw [herase, BoundedMap.erase]
    simp only [hmem]
    cases m.contents[key]? <;> exact ⟨rfl, rfl, rfl⟩
  | update key value =>
    rw [Command.call, Command.statusOn, Command.contentsAfter, Table.perform]
    have hreplace : Table.replace m key value = m.replace key value := rfl
    rw [hreplace, BoundedMap.replace]
    simp only [hmem]
    cases m.contents[key]? <;> exact ⟨rfl, rfl, rfl⟩
  | exist key =>
    rw [Command.call, Command.statusOn, Command.contentsAfter, Table.perform, Table.contains]
    have hget : Table.get? m key = m.contents[key]? := rfl
    rw [hget]
    simp only [hmem, and_true]
    cases m.contents[key]? <;> exact ⟨rfl, rfl⟩

theorem ofAnswer_lawful {τ : Type} [Table τ] [LawfulTable τ] {t : τ} (h : LawfulTable.Sound t)
    (target : Target) (command : Command) :
    let response := ofAnswer target command (Table.perform t command.call).1
    let contents := (Table.bounded t).contents
    response.status = command.statusOn contents (Table.capacity t) ∧
      response.value = command.valueOn contents ∧
      (Table.bounded (Table.perform t command.call).2).contents =
        command.contentsAfter contents (Table.capacity t) := by
  have hle : (Table.bounded t).contents.size ≤ (Table.bounded t).capacity :=
    Nat.le_trans (Nat.le_of_eq (LawfulTable.size_bounded h)) (LawfulTable.size_le h)
  have hbounded := ofAnswer_bounded hle target command
  rw [LawfulTable.perform_bounded h] at hbounded
  exact hbounded

end Response

theorem Table.perform_eq_self {τ : Type} [Table τ] (t : τ) {target : Target} {command : Command}
    (h : (Response.ofAnswer target command (perform t command.call).1).status ≠ .ok ∨
      command.isMutation = false) : (perform t command.call).2 = t := by
  cases command with
  | set key value =>
    simp only [Command.call, perform] at h ⊢
    generalize insert t key value = result at h ⊢
    cases result with
    | error cause => rfl
    | ok t' =>
      rcases h with h | h
      · exact absurd rfl h
      · cases h
  | del key =>
    simp only [Command.call, perform] at h ⊢
    generalize erase t key = result at h ⊢
    cases result with
    | error cause => rfl
    | ok found =>
      rcases h with h | h
      · exact absurd rfl h
      · cases h
  | update key value =>
    simp only [Command.call, perform] at h ⊢
    generalize replace t key value = result at h ⊢
    cases result with
    | error cause => rfl
    | ok found =>
      rcases h with h | h
      · exact absurd rfl h
      · cases h
  | get key => rfl
  | exist key => rfl

namespace Store

theorem contents_eq (s : Store) (target : Target) :
    s.contents target = (Table.bounded (s.table target)).contents := by
  rw [contents, toList_eq]
  rfl

/-- What a well-formed request comes to. It takes a store to another one; its table holds `max`
records at most. -/
structure Answered (max : Nat) (target : Target) (command : Command) (response : Response)
    (s s' : Store) : Prop where
  held : ∀ key value,
    (s.contents target)[key]? = some value ↔ ⟨key, value⟩ ∈ s.toList target
  status_eq : response.status = command.statusOn (s.contents target) max
  status_ne : response.status ≠ .error
  contents_eq : s'.contents target = command.contentsAfter (s.contents target) max
  value_eq : response.value = command.valueOn (s.contents target)
  value_iff : response.value.isSome = true ↔ command.verb = .get ∧ response.status = .ok
  message_eq : ∀ value, response.value = some value → response.message = value
  data_eq : response.data = some s'.stats
  others_eq : ∀ other, other ≠ target → s'.table other = s.table other
  unchanged : response.status ≠ .ok ∨ command.isMutation = false → s' = s

/-- What becomes of a request in a store that any actions have led to. -/
theorem execute_answers {c : Config} {s : Store} (h : Reachable c s) (r : Request) :
    match r.parse with
    | .error malformed => s.execute r = (⟨.error, malformed.message, none, none⟩, s)
    | .ok (target, command) =>
      Answered (c.capacity target) target command (s.execute r).1 s (s.execute r).2 := by
  split
  · next malformed hparse => exact execute_of_error s hparse
  · next target command hparse =>
    obtain ⟨hsound, hcapacity⟩ := h.sound target
    obtain ⟨hstatus, hvalue, hafter⟩ := Response.ofAnswer_lawful hsound target command
    rw [← contents_eq, hcapacity] at hstatus hafter
    rw [← contents_eq] at hvalue
    have hread := command.valueOn_isSome_iff (s.contents target) (c.capacity target)
    rw [← hvalue, ← hstatus] at hread
    rw [execute_of_ok s target hparse]
    refine ⟨?_, hstatus, ?_, ?_, hvalue, hread, ?_, rfl, ?_, ?_⟩
    · intro key value
      rw [contents, toList_eq]
      exact Contents.getElem?_ofList_eq_some_iff (LawfulTable.distinct hsound) key value
    · exact hstatus ▸ command.statusOn_ne_error _ _
    · rw [contents_eq, table_setTable]
      exact hafter
    · intro value hmessage
      exact Response.message_ofAnswer hmessage
    · intro other hother
      exact table_setTable_of_ne s target hother _
    · intro hquiet
      simp only [Table.perform_eq_self _ hquiet, setTable_table]

/-- A value that was set is read. -/
theorem execute_answers_get : ∃ s, Reachable (.uniform 1) s ∧
    Answered 1 .array (.get "a") (s.execute (.ofKey "GET" "a")).1 s
      (s.execute (.ofKey "GET" "a")).2 ∧
    (s.execute (.ofKey "GET" "a")).1.value = some "1" := by
  have hnew : ofConfig (.uniform 1) = .ok ⟨.empty 1, .empty 1 1, .empty 1⟩ := rfl
  have h := (Reachable.new hnew).act (.execute ⟨"set", some "a", some "1", none⟩)
  have hparse : (Request.ofKey "GET" "a").parse = .ok (.array, .get "a") := rfl
  have hanswers := execute_answers h (.ofKey "GET" "a")
  rw [hparse] at hanswers
  exact ⟨_, h, hanswers, by decide +kernel⟩

end Store

end TriStore
