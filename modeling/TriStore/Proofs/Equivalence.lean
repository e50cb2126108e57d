import TriStore.Proofs.Store

/-!
# The three structures are interchangeable

Array, hash table and tree with one capacity stand for the same bounded map, so the same calls get
the same answers from each of them. In a store the calls come as requests: a round sends one and the
same to each of the tables, by whichever name and in whichever order.
-/

namespace TriStore

/-- A request asks a verb of the table of a target, by letter or by name. -/
def Request.Asks (r : Request) (target : Target) (verb : Verb) : Prop :=
  ∃ lettered, Verb.split? r.cmd = some (lettered, verb) ∧ r.resolveTarget lettered = .ok target

/-- Requests for each of the tables that ask the same, and the order in which they are sent. -/
structure Round where
  verb : Verb
  key : Option String
  value : Option String
  request : Target → Request
  asks : ∀ target, (request target).Asks target verb
  key_eq : ∀ target, (request target).key = key
  value_eq : ∀ target, (request target).value = value
  order : List Target
  order_perm : order.Perm Target.all

namespace Response

/-- Responses of two tables that differ at most in the name of the full one. -/
def Alike (target other : Target) (r r' : Response) : Prop :=
  r.status = r'.status ∧ r.value = r'.value ∧
    if r.status = .full then
      r.message = target.label ++ " storage full" ∧ r'.message = other.label ++ " storage full"
    else r.message = r'.message

theorem alike_of_body_eq {target other : Target} {r r' q q' : Response} (h : q.Alike target other q')
    (hr : r.body = q.body) (hr' : r'.body = q'.body) : r.Alike target other r' := by
  obtain ⟨hstatus, hmessage, hvalue⟩ : r.status = q.status ∧ r.message = q.message ∧
      r.value = q.value := by
    simpa [body] using hr
  obtain ⟨hstatus', hmessage', hvalue'⟩ : r'.status = q'.status ∧ r'.message = q'.message ∧
      r'.value = q'.value := by
    simpa [body] using hr'
  rw [Alike, hstatus, hmessage, hvalue, hstatus', hmessage', hvalue']
  exact h

theorem plain_alike (target other : Target) {status : Status} (h : status ≠ .full)
    (message : String) : Alike target other (plain status message) (plain status message) :=
  ⟨rfl, rfl, (if_neg h).mpr rfl⟩

theorem ofAnswer_alike (target other : Target) (command : Command) (answer : Answer) :
    (ofAnswer target command answer).Alike target other (ofAnswer other command answer) := by
  have hrefused (cause : Refusal) :
      Alike target other (ofError (.refused cause) target) (ofError (.refused cause) other) := by
    cases cause with
    | storeFull => exact ⟨rfl, rfl, rfl, rfl⟩
    | keyExists => exact ⟨rfl, rfl, rfl⟩
    | keyNotFound => exact ⟨rfl, rfl, rfl⟩
  unfold ofAnswer
  split
  · exact plain_alike target other (by decide) _
  · exact ⟨rfl, rfl, rfl⟩
  · exact plain_alike target other (by decide) _
  · exact plain_alike target other (by decide) _
  · exact plain_alike target other (by decide) _
  · exact hrefused _
  · exact hrefused _

end Response

def AllAlike (responses : List (Target × Response)) : Prop :=
  (responses.map (·.1)).Perm Target.all ∧
    ∀ target r other r', (target, r) ∈ responses → (other, r') ∈ responses →
      r.Alike target other r'

namespace Round

theorem asks_withTarget {r : Request} {verb : Verb} (h : Verb.split? r.cmd = some (none, verb))
    (target : Target) : (r.withTarget target).Asks target verb := by
  refine ⟨none, h, ?_⟩
  cases target <;> rfl

def named (r : Request) (verb : Verb) (h : Verb.split? r.cmd = some (none, verb)) : Round where
  verb := verb
  key := r.key
  value := r.value
  request := r.withTarget
  asks := asks_withTarget h
  key_eq _ := rfl
  value_eq _ := rfl
  order := Target.all
  order_perm := .refl _

variable (q : Round)

theorem order_nodup : q.order.Nodup := q.order_perm.nodup_iff.mpr (by decide)

theorem mem_order (target : Target) : target ∈ q.order :=
  q.order_perm.mem_iff.mpr (by cases target <;> decide)

def command : Except Request.Malformed Command := do
  let key ← Request.required .keyRequired q.key
  match q.verb with
  | .set => return .set key (← Request.required .valueRequired q.value)
  | .get => return .get key
  | .del => return .del key
  | .update => return .update key (← Request.required .valueRequired q.value)
  | .exist => return .exist key

theorem parse_request (target : Target) :
    (q.request target).parse = q.command.map fun command => (target, command) := by
  obtain ⟨lettered, hsplit, hresolve⟩ := q.asks target
  unfold Request.parse command
  simp only [hsplit, hresolve, q.key_eq, q.value_eq]
  cases Request.required .keyRequired q.key with
  | error malformed => rfl
  | ok key =>
    cases q.verb with
    | set => cases Request.required .valueRequired q.value <;> rfl
    | update => cases Request.required .valueRequired q.value <;> rfl
    | _ => rfl

section Table
variable {τ : Type} [Table τ]

def reply (target : Target) (t : τ) : Response :=
  match q.command with
  | .error malformed => .plain .error malformed.message
  | .ok command => .ofAnswer target command (Table.perform t command.call).1

def next (t : τ) : τ :=
  match q.command with
  | .error _ => t
  | .ok command => (Table.perform t command.call).2

variable [LawfulTable τ] {t : τ}

theorem next_keeps (h : LawfulTable.Sound t) : LawfulTable.Sound (q.next t) := by
  unfold next
  split
  · exact h
  · next command _ => exact (LawfulTable.perform_keeps h command.call).1

theorem next_bounded (h : LawfulTable.Sound t) :
    q.next (Table.bounded t) = Table.bounded (q.next t) := by
  unfold next
  split
  · rfl
  · rw [LawfulTable.perform_bounded h]

theorem reply_bounded (h : LawfulTable.Sound t) (target : Target) :
    q.reply target (Table.bounded t) = q.reply target t := by
  unfold reply
  split
  · rfl
  · rw [LawfulTable.perform_bounded h]

end Table

theorem reply_alike (target other : Target) (m : BoundedMap) :
    (q.reply target m).Alike target other (q.reply other m) := by
  unfold reply
  split
  · exact Response.plain_alike target other (by decide) _
  · exact Response.ofAnswer_alike target other _ _

theorem execute_request (s : Store) (target : Target) :
    (s.execute (q.request target)).1.body = (q.reply target (s.table target)).body ∧
      (s.execute (q.request target)).2 = s.setTable target (q.next (s.table target)) := by
  have hparse := q.parse_request target
  unfold reply next
  cases hcommand : q.command with
  | error malformed =>
    rw [hcommand] at hparse
    rw [Store.execute_of_error s hparse, Store.setTable_table]
    exact ⟨rfl, rfl⟩
  | ok command =>
    rw [hcommand] at hparse
    rw [Store.execute_of_ok s target hparse]
    exact ⟨rfl, rfl⟩

def run (s : Store) : List Target → List (Target × Response) × Store
  | [] => ([], s)
  | target :: order =>
    let executed := s.execute (q.request target)
    let rest := run executed.2 order
    ((target, executed.1) :: rest.1, rest.2)

theorem run_responses (s : Store) {order : List Target} (h : order.Nodup) :
    (q.run s order).1.map (fun p => (p.1, p.2.body)) =
      order.map fun target => (target, (q.reply target (s.table target)).body) := by
  induction order generalizing s with
  | nil => rfl
  | cons target order ih =>
    obtain ⟨hfresh, hnodup⟩ := List.nodup_cons.mp h
    obtain ⟨hbody, hstore⟩ := q.execute_request s target
    -- the tables that are asked later are those of the store before the first request
    have htables : ∀ other ∈ order,
        (s.execute (q.request target)).2.table other = s.table other := by
      intro other hother
      rw [hstore]
      exact Store.table_setTable_of_ne s target (fun heq => hfresh (heq ▸ hother)) _
    have htail : order.map (fun other =>
          (other, (q.reply other ((s.execute (q.request target)).2.table other)).body)) =
        order.map fun other => (other, (q.reply other (s.table other)).body) := by
      apply List.map_congr_left
      intro other hother
      rw [htables other hother]
    rw [run, List.map_cons, List.map_cons, ih _ hnodup, htail, hbody]

theorem run_table_of_not_mem (s : Store) {order : List Target} {target : Target}
    (h : target ∉ order) : (q.run s order).2.table target = s.table target := by
  induction order generalizing s with
  | nil => rfl
  | cons first order ih =>
    rw [run, ih _ (List.not_mem_of_not_mem_cons h), (q.execute_request s first).2]
    exact Store.table_setTable_of_ne s first (List.ne_of_not_mem_cons h) _

theorem run_table (s : Store) {order : List Target} (h : order.Nodup) {target : Target}
    (hmem : target ∈ order) : (q.run s order).2.table target = q.next (s.table target) := by
  induction order generalizing s with
  | nil => cases hmem
  | cons first order ih =>
    obtain ⟨hfresh, hnodup⟩ := List.nodup_cons.mp h
    have hstore := (q.execute_request s first).2
    rcases List.mem_cons.mp hmem with rfl | hmem
    · rw [run, run_table_of_not_mem q _ hfresh, hstore, Store.table_setTable]
    · have hne : target ≠ first := fun heq => hfresh (heq ▸ hmem)
      rw [run, ih _ hnodup hmem, hstore, Store.table_setTable_of_ne s first hne]

end Round

namespace Store

def play (s : Store) : List Round → List (List (Target × Response))
  | [] => []
  | q :: rounds => (q.run s q.order).1 :: play (q.run s q.order).2 rounds

def Uniform (m : BoundedMap) (s : Store) : Prop := ∀ target,
  LawfulTable.Sound (s.table target) ∧ Table.bounded (s.table target) = m

variable {m : BoundedMap} {s : Store}

theorem Uniform.next (h : Uniform m s) (q : Round) : Uniform (q.next m) (q.run s q.order).2 := by
  intro target
  obtain ⟨hsound, hbounded⟩ := h target
  rw [q.run_table s q.order_nodup (q.mem_order target)]
  refine ⟨q.next_keeps hsound, ?_⟩
  rw [← q.next_bounded hsound, hbounded]

theorem Uniform.alike (h : Uniform m s) (q : Round) : AllAlike (q.run s q.order).1 := by
  have hresponses := q.run_responses s q.order_nodup
  generalize (q.run s q.order).1 = responses at hresponses
  have hbody : ∀ target r, (target, r) ∈ responses → r.body = (q.reply target m).body := by
    intro target r hr
    have hmem := List.mem_map_of_mem (f := fun p => (p.1, p.2.body)) hr
    rw [hresponses] at hmem
    obtain ⟨asked, -, heq⟩ := List.mem_map.mp hmem
    obtain ⟨rfl, hreply⟩ := Prod.mk.inj heq
    obtain ⟨hsound, hbounded⟩ := h asked
    rw [← hreply, ← q.reply_bounded hsound, hbounded]
  refine ⟨?_, ?_⟩
  · have htargets := congrArg (List.map (·.1)) hresponses
    rw [List.map_map, List.map_map] at htargets
    have horder : responses.map (·.1) = q.order := htargets.trans (List.map_id _)
    rw [horder]
    exact q.order_perm
  · intro target r other r' hr hr'
    exact Response.alike_of_body_eq (q.reply_alike target other m) (hbody target r hr)
      (hbody other r' hr')

theorem Uniform.play (h : Uniform m s) (rounds : List Round) :
    ∀ responses ∈ s.play rounds, AllAlike responses := by
  induction rounds generalizing m s with
  | nil =>
    intro responses hresponses
    cases hresponses
  | cons q rounds ih =>
    intro responses hresponses
    rcases List.mem_cons.mp hresponses with rfl | hresponses
    · exact h.alike q
    · exact ih (h.next q) responses hresponses

theorem uniform_ofConfig {capacity : Nat} {buckets : Option Nat}
    (h : ofConfig ⟨capacity, capacity, capacity, buckets⟩ = .ok s) :
    Uniform (.empty capacity) s := by
  intro target
  refine ⟨(sound_ofConfig h target).1, ?_⟩
  obtain rfl := eq_of_ofConfig h
  cases target with
  | array => exact SlotTable.bounded_empty capacity
  | hash => exact ChainTable.bounded_empty capacity _
  | tree => exact TreeTable.bounded_empty capacity

end Store

/-- The three structures with one capacity answer every run of calls alike, and agree after it in all
but the order of their records, whatever the number of chains; the tree has them in the order of the
keys. The same requests sent to each table of a store get the same responses, up to the name of a
full table. -/
theorem structures_agree (capacity buckets : Nat) :
    (∀ calls : List Call,
      let a := SlotTable.empty capacity
      let h := ChainTable.empty capacity buckets
      let t := TreeTable.empty capacity
      Table.answers a calls = Table.answers t calls ∧
        Table.answers h calls = Table.answers t calls ∧
        Table.Agree (Table.after a calls) (Table.after t calls) ∧
        Table.Agree (Table.after h calls) (Table.after t calls) ∧
        Table.Agree (Table.after a calls) (Table.after h calls) ∧
        (Table.toList (Table.after t calls)).Pairwise (fun r s => r.key < s.key) ∧
        ∀ others, Table.answers (ChainTable.empty capacity others) calls = Table.answers h calls ∧
          Table.Agree (Table.after (ChainTable.empty capacity others) calls)
            (Table.after h calls)) ∧
      ∀ hashBuckets s, Store.ofConfig ⟨capacity, capacity, capacity, hashBuckets⟩ = .ok s →
        ∀ rounds : List Round, ∀ responses ∈ s.play rounds, AllAlike responses := by
  have ha : LawfulTable.Sound (SlotTable.empty capacity) := SlotTable.empty_wellFormed capacity
  have hh (chains : Nat) : LawfulTable.Sound (ChainTable.empty capacity chains) :=
    ChainTable.empty_wellFormed capacity chains
  have ht : LawfulTable.Sound (TreeTable.empty capacity) := TreeTable.empty_wellFormed capacity
  have habounded := SlotTable.bounded_empty capacity
  have hhbounded := ChainTable.bounded_empty capacity
  have htbounded := TreeTable.bounded_empty capacity
  constructor
  · intro calls a h t
    have hat := LawfulTable.runs_agree ha ht (habounded.trans htbounded.symm) calls
    have hht := LawfulTable.runs_agree (hh buckets) ht
      ((hhbounded buckets).trans htbounded.symm) calls
    have hah := LawfulTable.runs_agree ha (hh buckets)
      (habounded.trans (hhbounded buckets).symm) calls
    have hsorted := TreeTable.sorted (LawfulTable.after_keeps ht calls).1
    refine ⟨hat.1, hht.1, hat.2, hht.2, hah.2, hsorted, fun others => ?_⟩
    exact LawfulTable.runs_agree (hh others) (hh buckets)
      ((hhbounded others).trans (hhbounded buckets).symm) calls
  · intro hashBuckets s hs rounds
    exact (Store.uniform_ofConfig hs).play rounds

/-- Two records are one too many for a store of capacity one. -/
theorem structures_agree_on_two_sets : ∃ s, Store.ofConfig ⟨1, 1, 1, none⟩ = .ok s ∧
    ∀ responses ∈ s.play [.named ⟨"SET", some "a", some "1", none⟩ .set rfl,
        .named ⟨"SET", some "b", some "2", none⟩ .set rfl], AllAlike responses :=
  ⟨_, rfl, (structures_agree 1 1).2 none _ rfl _⟩

end TriStore
