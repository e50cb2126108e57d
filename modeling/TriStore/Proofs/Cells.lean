import Mathlib.Logic.Function.Basic
import TriStore.Proofs.Store

/-!
# Stores with room

As long as a table is not full, a command depends on nothing but the value under its own key. A store
with room for all that is still to be set thus works like a map of cells, one for each key of each
table, in which a request touches one cell at most.
-/

namespace TriStore

namespace Command

/-- The answer to a command in a table with room that holds a value or none under its key. -/
def answerOn (held : Option String) : Command → Answer
  | set _ _ => if held.isSome then .refused .keyExists else .done
  | get _ => .found held
  | del _ | update _ _ => (held.map .was).getD (.refused .keyNotFound)
  | exist _ => .present held.isSome

def leaves (held : Option String) : Command → Option String
  | set _ value => some (held.getD value)
  | del _ => none
  | update _ value => held.map fun _ => value
  | get _ | exist _ => held

def adds : Command → Nat
  | set _ _ => 1
  | get _ | del _ | update _ _ | exist _ => 0

end Command

/-- What becomes of a command in a table with room, as seen through its look-ups. -/
structure Table.Local {τ : Type} [Table τ] (t : τ) (command : Command) : Prop where
  answer_eq : (perform t command.call).1 = command.answerOn (get? t command.key)
  get?_eq : get? (perform t command.call).2 =
    Function.update (get? t) command.key (command.leaves (get? t command.key))
  size_le : size (perform t command.call).2 ≤ size t + command.adds

namespace BoundedMap
variable {m : BoundedMap}

theorem get?_insert (key value : String) :
    Table.get? { m with contents := m.contents.insert key value } =
      Function.update (Table.get? m) key (some value) := by
  funext other
  rw [Function.update_apply]
  change (m.contents.insert key value)[other]? = if other = key then _ else m.contents[other]?
  rw [Std.ExtTreeMap.getElem?_insert]
  simp only [Std.LawfulEqOrd.compare_eq_iff_eq, eq_comm (a := key)]

theorem get?_erase (key : String) :
    Table.get? { m with contents := m.contents.erase key } =
      Function.update (Table.get? m) key none := by
  funext other
  rw [Function.update_apply]
  change (m.contents.erase key)[other]? = if other = key then _ else m.contents[other]?
  rw [Std.ExtTreeMap.getElem?_erase]
  simp only [Std.LawfulEqOrd.compare_eq_iff_eq, eq_comm (a := key)]

theorem mem_of_get? {key old : String} (h : Table.get? m key = some old) : key ∈ m.contents :=
  Std.ExtTreeMap.mem_iff_isSome_getElem?.mpr (Option.isSome_of_eq_some h)

theorem not_mem_of_get? {key : String} (h : Table.get? m key = none) : key ∉ m.contents := by
  have hfound : m.contents[key]? = none := h
  rw [Std.ExtTreeMap.mem_iff_isSome_getElem?, hfound]
  exact Bool.false_ne_true

theorem replace_of_some {key old : String} (h : Table.get? m key = some old) (value : String) :
    Table.replace m key value = .ok (old, { m with contents := m.contents.insert key value }) := by
  have hfound : m.contents[key]? = some old := h
  change m.replace key value = _
  rw [replace, hfound]

theorem replace_of_none {key : String} (h : Table.get? m key = none) (value : String) :
    Table.replace m key value = .error .keyNotFound := by
  have hfound : m.contents[key]? = none := h
  change m.replace key value = _
  rw [replace, hfound]

theorem erase_of_some {key old : String} (h : Table.get? m key = some old) :
    Table.erase m key = .ok (old, { m with contents := m.contents.erase key }) := by
  have hfound : m.contents[key]? = some old := h
  change m.erase key = _
  rw [erase, hfound]

theorem erase_of_none {key : String} (h : Table.get? m key = none) :
    Table.erase m key = .error .keyNotFound := by
  have hfound : m.contents[key]? = none := h
  change m.erase key = _
  rw [erase, hfound]

/-- A call that changes nothing, of a command that leaves what is held as it is. -/
theorem local_of_unchanged {command : Command}
    (h : Table.perform m command.call = (command.answerOn (Table.get? m command.key), m))
    (hleaves : command.leaves (Table.get? m command.key) = Table.get? m command.key) :
    Table.Local m command := by
  refine ⟨congrArg (·.1) h, ?_, ?_⟩
  · rw [h, hleaves, Function.update_eq_self]
  · rw [h]
    exact Nat.le_add_right _ _

/-- A call that gives the key of a command what the command leaves there. -/
theorem local_of_changed {command : Command} {contents : Contents}
    (h : Table.perform m command.call =
      (command.answerOn (Table.get? m command.key), { m with contents }))
    (hget : Table.get? { m with contents } = Function.update (Table.get? m) command.key
      (command.leaves (Table.get? m command.key)))
    (hsize : contents.size ≤ m.contents.size + command.adds) : Table.Local m command := by
  refine ⟨congrArg (·.1) h, ?_, ?_⟩
  · rw [h]
    exact hget
  · rw [h]
    exact hsize

theorem local_of_room (command : Command)
    (hroom : m.contents.size + command.adds ≤ m.capacity) : Table.Local m command := by
  -- what is held decides between a call that is served and one that is refused
  cases hheld : Table.get? m command.key with
  | some old =>
    have hkey := mem_of_get? hheld
    cases command with
    | set key value =>
      have hinsert : Table.insert m key value = .error .keyExists := if_pos hkey
      apply local_of_unchanged
      · rw [hheld, Command.call, Table.perform, hinsert]
        rfl
      · rw [hheld]
        rfl
    | del key =>
      have herase : Table.erase m key = .ok (old, _) := erase_of_some hheld
      apply local_of_changed
      · rw [hheld, Command.call, Table.perform, herase]
        rfl
      · exact get?_erase key
      · exact Std.ExtTreeMap.size_erase_le
    | update key value =>
      have hreplace : Table.replace m key value = .ok (old, _) := replace_of_some hheld value
      apply local_of_changed
      · rw [hheld, Command.call, Table.perform, hreplace]
        rfl
      · rw [hheld]
        exact get?_insert key value
      · exact Nat.le_of_eq (Std.ExtTreeMap.size_insert.trans (if_pos hkey))
    | get key => exact local_of_unchanged rfl rfl
    | exist key => exact local_of_unchanged rfl rfl
  | none =>
    cases command with
    | set key value =>
      have hfree : ¬ m.capacity ≤ m.contents.size := Nat.not_le.mpr hroom
      have hinsert : Table.insert m key value =
          .ok { m with contents := m.contents.insert key value } :=
        (if_neg (not_mem_of_get? hheld)).trans (if_neg hfree)
      apply local_of_changed
      · rw [hheld, Command.call, Table.perform, hinsert]
        rfl
      · rw [hheld]
        exact get?_insert key value
      · exact Std.ExtTreeMap.size_insert_le
    | del key =>
      have herase : Table.erase m key = .error .keyNotFound := erase_of_none hheld
      apply local_of_unchanged
      · rw [hheld, Command.call, Table.perform, herase]
        rfl
      · exact hheld.symm
    | update key value =>
      have hreplace : Table.replace m key value = .error .keyNotFound := replace_of_none hheld value
      apply local_of_unchanged
      · rw [hheld, Command.call, Table.perform, hreplace]
        rfl
      · rw [hheld]
        rfl
    | get key => exact local_of_unchanged rfl rfl
    | exist key => exact local_of_unchanged rfl rfl

end BoundedMap

theorem LawfulTable.local_of_room {τ : Type} [Table τ] [LawfulTable τ] {t : τ}
    (h : LawfulTable.Sound t) (command : Command)
    (hroom : Table.size t + command.adds ≤ Table.capacity t) : Table.Local t command := by
  have hsize : (Table.bounded t).contents.size = Table.size t := size_bounded h
  have hsound := (perform_keeps h command.call).1
  have hget : Table.get? (Table.bounded t) = Table.get? t := funext (get?_bounded h)
  obtain ⟨hanswer, hlookup, hle⟩ := BoundedMap.local_of_room (m := Table.bounded t) command
    (hsize ▸ hroom)
  rw [perform_bounded h] at hanswer hlookup hle
  rw [size_bounded hsound, size_bounded h] at hle
  rw [hget] at hanswer hlookup
  exact ⟨hanswer, (funext (get?_bounded hsound)).symm.trans hlookup, hle⟩

abbrev Cell := Target × String

namespace Request

def cell? (r : Request) : Option Cell :=
  match r.parse with
  | .ok (target, command) => some (target, command.key)
  | .error _ => none

def sets (target : Target) (r : Request) : Bool :=
  match r.parse with
  | .ok (asked, command) => asked = target && command.verb = .set
  | .error _ => false

end Request

abbrev Cells := Cell → Option String

namespace Cells
variable (cells : Cells)

def reply (r : Request) : Status × String × Option String :=
  match r.parse with
  | .ok (target, command) =>
    (Response.ofAnswer target command (command.answerOn (cells (target, command.key)))).body
  | .error malformed => (Response.plain .error malformed.message).body

def next (r : Request) : Cells :=
  match r.parse with
  | .ok (target, command) =>
    Function.update cells (target, command.key) (command.leaves (cells (target, command.key)))
  | .error _ => cells

variable {cells} {r : Request} {target : Target} {command : Command}

theorem reply_of_ok (h : r.parse = .ok (target, command)) : cells.reply r = (Response.ofAnswer
    target command (command.answerOn (cells (target, command.key)))).body := by
  rw [reply, h]

theorem reply_of_error {malformed : Request.Malformed} (h : r.parse = .error malformed) :
    cells.reply r = (Response.plain .error malformed.message).body := by
  rw [reply, h]

theorem next_of_ok (h : r.parse = .ok (target, command)) : cells.next r =
    Function.update cells (target, command.key)
      (command.leaves (cells (target, command.key))) := by
  rw [next, h]

theorem next_of_error {malformed : Request.Malformed} (h : r.parse = .error malformed) :
    cells.next r = cells := by
  rw [next, h]

theorem cell?_of_ok (h : r.parse = .ok (target, command)) :
    r.cell? = some (target, command.key) := by
  rw [Request.cell?, h]

/-- A request changes no cell but its own. -/
theorem next_of_ne {cell : Cell} (h : cell ∉ r.cell?) : cells.next r cell = cells cell := by
  cases hparse : r.parse with
  | error malformed => rw [next_of_error hparse]
  | ok parsed =>
    obtain ⟨target, command⟩ := parsed
    rw [cell?_of_ok hparse, Option.mem_some_iff] at h
    rw [next_of_ok hparse, Function.update_of_ne (Ne.symm h)]

theorem next_congr {others : Cells} {cell : Cell} (h : cells cell = others cell) :
    cells.next r cell = others.next r cell := by
  cases hparse : r.parse with
  | error malformed =>
    rw [next_of_error hparse, next_of_error hparse]
    exact h
  | ok parsed =>
    obtain ⟨target, command⟩ := parsed
    rw [next_of_ok hparse, next_of_ok hparse, Function.update_apply, Function.update_apply]
    split
    · next hcell => rw [← hcell, h]
    · exact h

theorem reply_congr {others : Cells} (h : ∀ cell ∈ r.cell?, cells cell = others cell) :
    cells.reply r = others.reply r := by
  cases hparse : r.parse with
  | error malformed => rw [reply_of_error hparse, reply_of_error hparse]
  | ok parsed =>
    obtain ⟨target, command⟩ := parsed
    rw [reply_of_ok hparse, reply_of_ok hparse, h _ (cell?_of_ok hparse)]

theorem reply_ne_full (cells : Cells) (r : Request) : (cells.reply r).1 ≠ .full := by
  rw [reply]
  split
  · next target command _ =>
    generalize cells (target, command.key) = held
    cases command <;> cases held <;> exact nofun
  · exact nofun

end Cells

namespace Store

def cells (s : Store) : Cells := fun cell => s.get? cell.1 cell.2

/-- There is room in each table for all that some requests may add. -/
def RoomFor (s : Store) (requests : List Request) : Prop := ∀ target,
  requests.countP (·.sets target) ≤ (s.usage target).remaining

variable {c : Config} {s : Store}

theorem RoomFor.perm {requests others : List Request} (h : s.RoomFor requests)
    (hperm : requests.Perm others) : s.RoomFor others :=
  fun target => hperm.countP_eq _ ▸ h target

theorem roomFor_iff (h : Sound c s) {requests : List Request} : s.RoomFor requests ↔
    ∀ target, Table.size (s.table target) + requests.countP (·.sets target) ≤
      c.capacity target := by
  refine forall_congr' fun target => ?_
  obtain ⟨hsound, hcapacity⟩ := h target
  have hle := LawfulTable.size_le hsound
  have hremaining : (s.usage target).remaining =
      Table.capacity (s.table target) - Table.size (s.table target) := by
    cases target <;> rfl
  rw [hremaining, hcapacity]
  rw [hcapacity] at hle
  omega

theorem cells_setTable (s : Store) (target : Target) {t : target.Form} {key : String}
    {held : Option String}
    (h : Table.get? t = Function.update (Table.get? (s.table target)) key held) :
    (s.setTable target t).cells = Function.update s.cells (target, key) held := by
  funext cell
  obtain ⟨other, asked⟩ := cell
  rw [Function.update_apply, cells, cells, get?_eq, get?_eq]
  by_cases hother : other = target
  · subst hother
    rw [table_setTable, h, Function.update_apply]
    simp only [Prod.mk.injEq, true_and]
  · rw [table_setTable_of_ne s target hother, if_neg fun heq => hother (congrArg (·.1) heq)]

/-- A store with room works like its cells, and keeps room for the requests to come. -/
theorem execute_of_room (h : Sound c s) {r : Request} {requests : List Request}
    (hroom : s.RoomFor (r :: requests)) :
    (s.execute r).1.body = s.cells.reply r ∧ (s.execute r).2.cells = s.cells.next r ∧
      (s.execute r).2.RoomFor requests := by
  rw [roomFor_iff h] at hroom
  simp only [List.countP_cons] at hroom
  cases hparse : r.parse with
  | error malformed =>
    rw [execute_of_error s hparse, Cells.reply_of_error hparse, Cells.next_of_error hparse,
      roomFor_iff h]
    exact ⟨rfl, rfl, fun target => Nat.le_trans (by omega) (hroom target)⟩
  | ok parsed =>
    obtain ⟨target, command⟩ := parsed
    obtain ⟨hsound, hcapacity⟩ := h target
    have hadds (other : Target) : (if r.sets other = true then 1 else 0) =
        if target = other then command.adds else 0 := by
      rw [Request.sets, hparse]
      cases command <;> simp [Command.verb, Command.adds]
    simp only [hadds] at hroom
    have hfits : Table.size (s.table target) + command.adds ≤ Table.capacity (s.table target) := by
      have hown := hroom target
      rw [if_pos rfl] at hown
      omega
    obtain ⟨hanswer, hget, hsize⟩ := LawfulTable.local_of_room hsound command hfits
    have hheld : s.cells (target, command.key) = Table.get? (s.table target) command.key :=
      get?_eq s target command.key
    rw [← hheld] at hanswer hget
    rw [execute_of_ok s target hparse, Cells.reply_of_ok hparse, Cells.next_of_ok hparse,
      ← hanswer]
    refine ⟨rfl, cells_setTable s target hget, ?_⟩
    rw [roomFor_iff (h.perform target command.call)]
    intro other
    have hother := hroom other
    by_cases heq : target = other
    · subst heq
      rw [if_pos rfl] at hother
      rw [table_setTable]
      omega
    · rw [if_neg heq] at hother
      rw [table_setTable_of_ne s target (Ne.symm heq)]
      exact hother

end Store

end TriStore
