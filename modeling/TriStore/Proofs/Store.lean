import TriStore.Proofs.ChainTable
import TriStore.Proofs.SlotTable
import TriStore.Proofs.TreeTable
import TriStore.Store

/-!
# The tables of a store

A command on a store is a call of one of its tables, whose answer is put into words. All that is
said of tables in general thereby carries over to stores: what a command does depends on its own
table, and no other table takes part in it.
-/

namespace TriStore

namespace Target

def Form : Target → Type
  | array => SlotTable
  | hash => ChainTable
  | tree => TreeTable

instance : (target : Target) → Table target.Form
  | array => inferInstanceAs (Table SlotTable)
  | hash => inferInstanceAs (Table ChainTable)
  | tree => inferInstanceAs (Table TreeTable)

instance : (target : Target) → LawfulTable target.Form
  | array => inferInstanceAs (LawfulTable SlotTable)
  | hash => inferInstanceAs (LawfulTable ChainTable)
  | tree => inferInstanceAs (LawfulTable TreeTable)

end Target

def Command.call : Command → Call
  | set key value => .insert key value
  | get key => .get key
  | del key => .erase key
  | update key value => .replace key value
  | exist key => .contains key

def Response.body (r : Response) : Status × String × Option String := (r.status, r.message, r.value)

def Response.ofAnswer (target : Target) : Command → Answer → Response
  | .set _ _, .done => plain .ok "Set successfully"
  | .get _, .found (some value) => found value
  | .del _, .was _ => plain .ok "Deleted successfully"
  | .update _ _, .was _ => plain .ok "Modified successfully"
  | .exist _, .present true => plain .exist "Key exists"
  | _, .refused cause => ofError (.refused cause) target
  | _, _ => ofError (.refused .keyNotFound) target

def Config.capacity (c : Config) : Target → Nat
  | .array => c.arrayCapacity
  | .hash => c.hashCapacity
  | .tree => c.treeCapacity

namespace Store

def table (s : Store) : (target : Target) → target.Form
  | .array => s.array
  | .hash => s.hash
  | .tree => s.tree

def setTable (s : Store) : (target : Target) → target.Form → Store
  | .array, array => { s with array := array }
  | .hash, hash => { s with hash := hash }
  | .tree, tree => { s with tree := tree }

def contents (s : Store) (target : Target) : Contents := .ofList (s.toList target)

variable (s : Store) (target : Target)

@[simp] theorem table_setTable (t : target.Form) : (s.setTable target t).table target = t := by
  cases target <;> rfl

theorem table_setTable_of_ne {other : Target} (h : other ≠ target) (t : target.Form) :
    (s.setTable target t).table other = s.table other := by
  cases target <;> cases other <;> first | rfl | exact absurd rfl h

@[simp] theorem setTable_table : s.setTable target (s.table target) = s := by
  cases target <;> rfl

theorem toList_eq : s.toList target = Table.toList (s.table target) := by
  cases target <;> rfl

theorem get?_eq (key : String) : s.get? target key = Table.get? (s.table target) key := by
  cases target <;> rfl

theorem insert_eq (key value : String) : s.insert target key value =
    (Table.insert (s.table target) key value).map (s.setTable target) := by
  cases target <;> rfl

theorem replace_eq (key value : String) : s.replace target key value =
    (Table.replace (s.table target) key value).map fun (old, t) => (old, s.setTable target t) := by
  cases target <;> rfl

theorem erase_eq (key : String) : s.erase target key =
    (Table.erase (s.table target) key).map fun (old, t) => (old, s.setTable target t) := by
  cases target <;> rfl

theorem clear_eq : s.clear target = s.setTable target (Table.clear (s.table target)) := by
  cases target <;> rfl

/-- A command is a call of its table, put into words. -/
theorem apply_eq (command : Command) : s.apply target command =
    (.ofAnswer target command (Table.perform (s.table target) command.call).1,
      s.setTable target (Table.perform (s.table target) command.call).2) := by
  cases command with
  | set key value =>
    simp only [apply, insert_eq, Command.call, Table.perform]
    cases Table.insert (s.table target) key value with
    | ok t => rfl
    | error cause => simp only [Except.map, setTable_table, Response.ofAnswer]
  | get key =>
    simp only [apply, get?_eq, Command.call, Table.perform, setTable_table]
    cases Table.get? (s.table target) key <;> rfl
  | del key =>
    simp only [apply, erase_eq, Command.call, Table.perform]
    cases Table.erase (s.table target) key with
    | ok t => rfl
    | error cause => simp only [Except.map, setTable_table, Response.ofAnswer]
  | update key value =>
    simp only [apply, replace_eq, Command.call, Table.perform]
    cases Table.replace (s.table target) key value with
    | ok t => rfl
    | error cause => simp only [Except.map, setTable_table, Response.ofAnswer]
  | exist key =>
    simp only [apply, contains, get?_eq, Command.call, Table.perform, Table.contains, setTable_table]
    cases Table.get? (s.table target) key <;> rfl

theorem execute_of_error {r : Request} {malformed : Request.Malformed}
    (h : r.parse = .error malformed) :
    s.execute r = (.plain .error malformed.message, s) := by
  unfold execute
  rw [h]

theorem execute_of_ok {r : Request} {command : Command} (h : r.parse = .ok (target, command)) :
    s.execute r =
      let s' := s.setTable target (Table.perform (s.table target) command.call).2
      ((Response.ofAnswer target command (Table.perform (s.table target) command.call).1).withStats
        s'.stats, s') := by
  unfold execute
  simp only [h, apply_eq]

/-- One use of a store that may change it. -/
inductive Action where
  | execute (r : Request)
  | apply (target : Target) (command : Command)
  | insert (target : Target) (key value : String)
  | replace (target : Target) (key value : String)
  | erase (target : Target) (key : String)
  | clear (target : Target)

/-- The store after an action; a refused one changes nothing. -/
def act (s : Store) : Action → Store
  | .execute r => (s.execute r).2
  | .apply target command => (s.apply target command).2
  | .insert target key value => (s.insert target key value).toOption.getD s
  | .replace target key value => ((s.replace target key value).toOption.map (·.2)).getD s
  | .erase target key => ((s.erase target key).toOption.map (·.2)).getD s
  | .clear target => s.clear target

/-- The stores that finitely many actions lead to from an empty one. -/
inductive Reachable (c : Config) : Store → Prop where
  | new {s : Store} : ofConfig c = .ok s → Reachable c s
  | act {s : Store} (a : Action) : Reachable c s → Reachable c (s.act a)

/-- The call that an action comes to, and the table it is for; a malformed request comes to none. -/
def Action.call? : Action → Option (Target × Call)
  | .execute r =>
    match r.parse with
    | .ok (target, command) => some (target, command.call)
    | .error _ => none
  | .apply target command => some (target, command.call)
  | .insert target key value => some (target, .insert key value)
  | .replace target key value => some (target, .replace key value)
  | .erase target key => some (target, .erase key)
  | .clear target => some (target, .clear)

theorem act_of_none {a : Action} (h : a.call? = none) : s.act a = s := by
  cases a with
  | execute r =>
    rw [Action.call?] at h
    split at h
    · cases h
    · next malformed hparse => rw [act, execute_of_error s hparse]
  | _ => cases h

theorem act_of_some {a : Action} {target : Target} {call : Call} (h : a.call? = some (target, call)) :
    s.act a = s.setTable target (Table.perform (s.table target) call).2 := by
  cases a with
  | execute r =>
    rw [Action.call?] at h
    split at h
    · next target command hparse =>
      cases h
      rw [act, execute_of_ok s _ hparse]
    · cases h
  | apply target command =>
    cases h
    rw [act, apply_eq]
  | insert target key value =>
    cases h
    rw [act, insert_eq, Table.perform]
    cases Table.insert (s.table target) key value with
    | ok t => rfl
    | error cause => exact (setTable_table s target).symm
  | replace target key value =>
    cases h
    rw [act, replace_eq, Table.perform]
    cases Table.replace (s.table target) key value with
    | ok t => rfl
    | error cause => exact (setTable_table s target).symm
  | erase target key =>
    cases h
    rw [act, erase_eq, Table.perform]
    cases Table.erase (s.table target) key with
    | ok t => rfl
    | error cause => exact (setTable_table s target).symm
  | clear target =>
    cases h
    rw [act, clear_eq, Table.perform]

theorem table_act {a : Action} {target : Target} {call : Call}
    (h : a.call? = some (target, call)) :
    (s.act a).table target = (Table.perform (s.table target) call).2 := by
  rw [act_of_some s h, table_setTable]

theorem table_act_of_ne {a : Action} {target : Target}
    (h : ∀ call, a.call? ≠ some (target, call)) : (s.act a).table target = s.table target := by
  cases hcall : a.call? with
  | none => rw [act_of_none s hcall]
  | some called =>
    obtain ⟨other, call⟩ := called
    have hne : target ≠ other := fun heq => h call (heq ▸ hcall)
    rw [act_of_some s hcall, table_setTable_of_ne s other hne]

def Sound (c : Config) (s : Store) : Prop := ∀ target,
  LawfulTable.Sound (s.table target) ∧ Table.capacity (s.table target) = c.capacity target

variable {s target}

theorem eq_of_ofConfig {c : Config} (h : ofConfig c = .ok s) :
    s = ⟨.empty c.arrayCapacity, .empty c.hashCapacity c.buckets, .empty c.treeCapacity⟩ := by
  unfold ofConfig at h
  cases hvalid : c.validate with
  | error invalid =>
    rw [hvalid] at h
    cases h
  | ok =>
    rw [hvalid] at h
    cases h
    rfl

theorem exists_ofConfig {c : Config} (h : c.validate = .ok ()) : ∃ s, ofConfig c = .ok s := by
  rw [ofConfig, h]
  exact ⟨_, rfl⟩

theorem toList_ofConfig {c : Config} (h : ofConfig c = .ok s) (target : Target) :
    s.toList target = [] := by
  obtain rfl := eq_of_ofConfig h
  cases target with
  | array => exact SlotTable.toList_empty _
  | hash => exact ChainTable.toList_empty _ _
  | tree => rfl

theorem sound_ofConfig {c : Config} (h : ofConfig c = .ok s) : Sound c s := by
  obtain rfl := eq_of_ofConfig h
  intro target
  cases target with
  | array => exact ⟨SlotTable.empty_wellFormed _, SlotTable.capacity_empty _⟩
  | hash => exact ⟨ChainTable.empty_wellFormed _ _, rfl⟩
  | tree => exact ⟨TreeTable.empty_wellFormed _, rfl⟩

theorem Sound.perform {c : Config} (h : Sound c s) (target : Target) (call : Call) :
    Sound c (s.setTable target (Table.perform (s.table target) call).2) := by
  intro other
  by_cases hother : other = target
  · subst hother
    obtain ⟨hsound, hcapacity⟩ := h other
    rw [table_setTable]
    obtain ⟨hsound', hcapacity'⟩ := LawfulTable.perform_keeps hsound call
    exact ⟨hsound', hcapacity'.trans hcapacity⟩
  · rw [table_setTable_of_ne s target hother]
    exact h other

theorem Sound.distinct {c : Config} (h : Sound c s) (target : Target) :
    DistinctKeys (s.toList target) := by
  rw [toList_eq]
  exact LawfulTable.distinct (h target).1

theorem Sound.sorted {c : Config} (h : Sound c s) :
    (s.toList .tree).Pairwise fun r r' => r.key < r'.key :=
  TreeTable.sorted (h .tree).1

theorem Reachable.sound {c : Config} (h : Reachable c s) : Sound c s := by
  induction h with
  | new h => exact sound_ofConfig h
  | @act s a _ ih =>
    cases hcall : a.call? with
    | none =>
      rw [act_of_none s hcall]
      exact ih
    | some called =>
      obtain ⟨target, call⟩ := called
      rw [act_of_some s hcall]
      exact ih.perform target call

end Store

end TriStore
