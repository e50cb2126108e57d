import Mathlib.Data.List.ReduceOption
import TriStore.Proofs.Pool

/-!
# Panics cost neither workers nor jobs

However the events in the life of a pool follow one another, and whichever jobs panic, a pool keeps
as many workers as it was made with, and each job spawned is in one state: it waits, it runs, it has
returned or it has panicked. A job ends once, on the state that the jobs ended before it have left. A
pool that is left alone comes to rest, and then each job has given its result or has panicked.
-/

namespace TriStore.Pool
variable {σ β : Type}

def Event.job? : Event σ β → Option (Job σ β)
  | .spawn job => some job
  | .take _ => none
  | .finish _ => none

/-- The jobs that events spawn. The ticket of a job is its place among them. -/
def jobsOf (events : List (Event σ β)) : List (Job σ β) := events.filterMap Event.job?

def running (p : Pool σ β) : List (Nat × Job σ β) := p.workers.reduceOption

def tickets (p : Pool σ β) : List Nat := (p.queue ++ p.running).map (·.1) ++ p.ended.map (·.1)

structure AtRest (p : Pool σ β) : Prop where
  queue_eq : p.queue = []
  running_eq : p.running = []

inductive Stage (β : Type) where
  | queued
  | running
  | returned (result : β)
  | panicked

def Stage.ofResult : Option β → Stage β
  | some result => .returned result
  | none => .panicked

inductive Has (p : Pool σ β) (ticket : Nat) (job : Job σ β) : Stage β → Prop where
  | queued : (ticket, job) ∈ p.queue → Has p ticket job .queued
  | running : (ticket, job) ∈ p.running → Has p ticket job .running
  | ended {result : Option β} : (ticket, result) ∈ p.ended → Has p ticket job (.ofResult result)

/-- The record of the jobs that have ended, the last first, and the state that they have left. Each
of them ran once, on the state that those before it had left. -/
inductive Served (shared : σ) (jobs : List (Job σ β)) : List (Nat × Option β) → σ → Prop where
  | start : Served shared jobs [] shared
  | job {ended : List (Nat × Option β)} {s : σ} {ticket : Nat} {job : Job σ β} :
      Served shared jobs ended s → jobs[ticket]? = some job →
      Served shared jobs ((ticket, (job s).1) :: ended) (job s).2

/-- What every event keeps of a pool that jobs were spawned on. -/
structure Sound (threads : Nat) (shared : σ) (jobs : List (Job σ β)) (p : Pool σ β) : Prop where
  workers_length : p.workers.length = threads
  spawned_eq : p.spawned = jobs.length
  tickets_perm : p.tickets.Perm (List.range jobs.length)
  /-- The jobs that wait are the last ones spawned, in their order. -/
  queue_eq : ∃ taken, taken + p.queue.length = jobs.length ∧
    p.queue.map (·.1) = List.range' taken p.queue.length
  held : ∀ ticket job, (ticket, job) ∈ p.queue ++ p.running → jobs[ticket]? = some job
  served : Served shared jobs p.ended p.shared

section Workers
variable {workers : List (Option (Nat × Job σ β))} {worker : Nat} {job : Nat × Job σ β}

theorem exists_around_worker {busy : Option (Nat × Job σ β)} (h : workers[worker]? = some busy) :
    ∃ before after, workers = before ++ busy :: after ∧ before.length = worker := by
  obtain ⟨hlt, rfl⟩ := List.getElem?_eq_some_iff.mp h
  refine ⟨workers.take worker, workers.drop (worker + 1), ?_, List.length_take_of_le (Nat.le_of_lt hlt)⟩
  rw [← List.drop_eq_getElem_cons hlt, List.take_append_drop]

theorem reduceOption_set_some (job : Nat × Job σ β) (h : workers[worker]? = some none) :
    (workers.set worker (some job)).reduceOption.Perm (job :: workers.reduceOption) := by
  obtain ⟨before, after, rfl, rfl⟩ := exists_around_worker h
  rw [List.set_append_right _ _ (Nat.le_refl _), Nat.sub_self, List.set_cons_zero]
  simp only [List.reduceOption_append, List.reduceOption_cons_of_some,
    List.reduceOption_cons_of_none]
  exact List.perm_middle

/-- Whether the job of a worker returns or panics, it is at work no longer and all others are. -/
theorem reduceOption_release (h : workers[worker]? = some (some job)) (result : Option β) :
    workers.reduceOption.Perm (job :: (release workers worker result).reduceOption) := by
  obtain ⟨before, after, rfl, rfl⟩ := exists_around_worker h
  cases result with
  | some _ =>
    rw [release, List.set_append_right _ _ (Nat.le_refl _), Nat.sub_self, List.set_cons_zero]
    simp only [List.reduceOption_append, List.reduceOption_cons_of_some,
      List.reduceOption_cons_of_none]
    exact List.perm_middle
  | none =>
    rw [release, List.eraseIdx_append_of_length_le (Nat.le_refl _), Nat.sub_self,
      List.eraseIdx_cons_zero]
    simp only [List.reduceOption_append, List.reduceOption_cons_of_some,
      List.reduceOption_cons_of_none, List.reduceOption_nil, List.append_nil]
    exact List.perm_middle

/-- The place of a worker that goes down is taken by a new one. -/
theorem length_release (h : workers[worker]? = some (some job)) (result : Option β) :
    (release workers worker result).length = workers.length := by
  obtain ⟨hlt, -⟩ := List.getElem?_eq_some_iff.mp h
  cases result with
  | some _ => exact List.length_set
  | none =>
    rw [release, List.length_append, List.length_eraseIdx_of_lt hlt, List.length_singleton]
    omega

end Workers

section Events
variable {p p' : Pool σ β} {worker : Nat}

theorem take?_eq_some (h : p.take? worker = some p') :
    ∃ job queue, p.workers[worker]? = some none ∧ p.queue = job :: queue ∧
      p' = { p with queue := queue, workers := p.workers.set worker (some job) } := by
  unfold take? at h
  split at h
  · next job queue hworker hqueue => exact ⟨job, queue, hworker, hqueue, (Option.some.inj h).symm⟩
  · cases h

theorem finish?_eq_some (h : p.finish? worker = some p') :
    ∃ ticket job, p.workers[worker]? = some (some (ticket, job)) ∧
      p' = { p with
        shared := (job p.shared).2
        workers := release p.workers worker (job p.shared).1
        ended := (ticket, (job p.shared).1) :: p.ended } := by
  unfold finish? at h
  split at h
  · next ticket job hworker => exact ⟨ticket, job, hworker, (Option.some.inj h).symm⟩
  · cases h

end Events

theorem Served.append {shared s : σ} {jobs : List (Job σ β)} {ended : List (Nat × Option β)}
    (h : Served shared jobs ended s) (more : List (Job σ β)) :
    Served shared (jobs ++ more) ended s := by
  induction h with
  | start => exact .start
  | job _ hjob ih =>
    refine .job ih ?_
    rw [List.getElem?_append_left (List.getElem?_eq_some_iff.mp hjob).1, hjob]

theorem Served.exists_state {shared s : σ} {jobs : List (Job σ β)} {ended : List (Nat × Option β)}
    (h : Served shared jobs ended s) {ticket : Nat} {result : Option β}
    (hmem : (ticket, result) ∈ ended) :
    ∃ job before, jobs[ticket]? = some job ∧ result = (job before).1 := by
  induction h with
  | start => cases hmem
  | @job _ before _ job _ hjob ih =>
    rcases List.mem_cons.mp hmem with heq | hmem
    · obtain ⟨rfl, rfl⟩ := Prod.mk.inj heq
      exact ⟨job, before, hjob, rfl⟩
    · exact ih hmem

namespace Sound
variable {threads : Nat} {shared : σ} {jobs : List (Job σ β)} {p p' : Pool σ β} {worker : Nat}

theorem ofThreads (threads : Nat) (shared : σ) :
    Sound threads shared [] (⟨shared, 0, [], List.replicate threads none, []⟩ : Pool σ β) where
  workers_length := List.length_replicate
  spawned_eq := rfl
  tickets_perm := by simp [tickets, running]
  queue_eq := ⟨0, rfl, rfl⟩
  held := by simp [running]
  served := .start

/-- A new job waits behind all others, and its ticket is new. -/
theorem spawn (h : Sound threads shared jobs p) (job : Job σ β) :
    Sound threads shared (jobs ++ [job]) (p.spawn job) where
  workers_length := h.workers_length
  spawned_eq := by rw [Pool.spawn, h.spawned_eq, List.length_append, List.length_singleton]
  tickets_perm := by
    have hnew : (p.spawn job).tickets.Perm (p.spawned :: p.tickets) := by
      simp only [tickets, running, Pool.spawn, List.map_append, List.map_cons,
        List.append_assoc, List.singleton_append]
      exact List.perm_middle
    rw [List.length_append, List.length_singleton, List.range_succ, ← h.spawned_eq]
    refine hnew.trans ((List.perm_append_singleton _ _).symm.trans ?_)
    rw [h.spawned_eq]
    exact h.tickets_perm.append_right _
  queue_eq := by
    obtain ⟨taken, htaken, hqueue⟩ := h.queue_eq
    refine ⟨taken, ?_, ?_⟩
    · simp only [Pool.spawn, List.length_append, List.length_singleton]
      omega
    · simp only [Pool.spawn, List.map_append, hqueue, List.length_append, List.length_singleton,
        List.range'_1_concat]
      rw [h.spawned_eq, ← htaken]
      rfl
  held := by
    intro ticket other hmem
    have hcases : (ticket, other) ∈ p.queue ++ p.running ∨ (ticket, other) = (p.spawned, job) := by
      simp only [Pool.spawn, running, List.mem_append, List.mem_singleton] at hmem ⊢
      tauto
    rcases hcases with hmem | hnew
    · have hjob := h.held ticket other hmem
      rw [List.getElem?_append_left (List.getElem?_eq_some_iff.mp hjob).1, hjob]
    · obtain ⟨rfl, rfl⟩ := Prod.mk.inj hnew
      rw [h.spawned_eq, List.getElem?_concat_length]
  served := h.served.append [job]

theorem take (h : Sound threads shared jobs p) (htake : p.take? worker = some p') :
    Sound threads shared jobs p' := by
  obtain ⟨job, queue, hworker, hqueue, rfl⟩ := take?_eq_some htake
  have hrunning := reduceOption_set_some job hworker
  have hheld : (queue ++ (p.workers.set worker (some job)).reduceOption).Perm
      (p.queue ++ p.running) := by
    rw [hqueue]
    exact (hrunning.append_left queue).trans List.perm_middle
  refine ⟨?_, h.spawned_eq, ?_, ?_, ?_, h.served⟩
  · exact List.length_set.trans h.workers_length
  · exact ((hheld.map _).append_right _).trans h.tickets_perm
  · obtain ⟨taken, htaken, htickets⟩ := h.queue_eq
    rw [hqueue, List.length_cons] at htaken htickets
    rw [List.map_cons, List.range'_succ] at htickets
    have htaken' : taken + 1 + queue.length = jobs.length := by omega
    exact ⟨taken + 1, htaken', (List.cons.inj htickets).2⟩
  · intro ticket job hmem
    exact h.held ticket job (hheld.mem_iff.mp hmem)

theorem finish (h : Sound threads shared jobs p) (hfinish : p.finish? worker = some p') :
    Sound threads shared jobs p' := by
  obtain ⟨ticket, job, hworker, rfl⟩ := finish?_eq_some hfinish
  have hheld : (p.queue ++ p.running).Perm ((ticket, job) ::
      (p.queue ++ (release p.workers worker (job p.shared).1).reduceOption)) :=
    ((reduceOption_release hworker _).append_left p.queue).trans List.perm_middle
  refine ⟨?_, h.spawned_eq, ?_, h.queue_eq, ?_, ?_⟩
  · exact (length_release hworker _).trans h.workers_length
  · refine List.Perm.trans ?_ h.tickets_perm
    exact List.perm_middle.trans ((hheld.map (·.1)).symm.append_right _)
  · intro other otherJob hmem
    exact h.held other otherJob (hheld.mem_iff.mpr (List.mem_cons_of_mem _ hmem))
  · exact .job h.served (h.held ticket job (hheld.mem_iff.mpr List.mem_cons_self))

theorem step (h : Sound threads shared jobs p) {event : Event σ β} (hstep : p.step? event = some p') :
    Sound threads shared (jobs ++ event.job?.toList) p' := by
  cases event with
  | spawn job =>
    obtain rfl := Option.some.inj hstep
    exact h.spawn job
  | take worker =>
    rw [Event.job?, Option.toList_none, List.append_nil]
    exact h.take hstep
  | finish worker =>
    rw [Event.job?, Option.toList_none, List.append_nil]
    exact h.finish hstep

theorem replay (h : Sound threads shared jobs p) {events : List (Event σ β)}
    (hreplay : p.replay? events = some p') : Sound threads shared (jobs ++ jobsOf events) p' := by
  induction events generalizing p jobs with
  | nil =>
    obtain rfl := Option.some.inj hreplay
    rwa [jobsOf, List.filterMap_nil, List.append_nil]
  | cons event events ih =>
    obtain ⟨next, hstep, hrest⟩ := Option.bind_eq_some_iff.mp hreplay
    have hjobs : jobsOf (event :: events) = event.job?.toList ++ jobsOf events := by
      cases event <;> rfl
    rw [hjobs, ← List.append_assoc]
    exact ih (h.step hstep) hrest

theorem tickets_nodup (h : Sound threads shared jobs p) : p.tickets.Nodup :=
  h.tickets_perm.nodup_iff.mpr List.nodup_range

theorem exists_stage (h : Sound threads shared jobs p) {ticket : Nat} {job : Job σ β}
    (hjob : jobs[ticket]? = some job) : ∃ stage, p.Has ticket job stage := by
  have hmem : ticket ∈ p.tickets :=
    h.tickets_perm.mem_iff.mpr (List.mem_range.mpr (List.getElem?_eq_some_iff.mp hjob).1)
  rcases List.mem_append.mp hmem with hmem | hmem
  · obtain ⟨⟨_, other⟩, hheld, rfl⟩ := List.mem_map.mp hmem
    obtain rfl := Option.some.inj ((h.held _ other hheld).symm.trans hjob)
    rcases List.mem_append.mp hheld with hqueue | hrunning
    · exact ⟨_, .queued hqueue⟩
    · exact ⟨_, .running hrunning⟩
  · obtain ⟨⟨_, result⟩, hended, rfl⟩ := List.mem_map.mp hmem
    exact ⟨_, .ended hended⟩

theorem stage_unique (h : Sound threads shared jobs p) {ticket : Nat} {job : Job σ β}
    {stage other : Stage β} (hstage : p.Has ticket job stage) (hother : p.Has ticket job other) :
    stage = other := by
  obtain ⟨hheld, hended, hfinished⟩ := List.nodup_append.mp h.tickets_nodup
  rw [List.map_append] at hheld hfinished
  obtain ⟨-, -, hstarted⟩ := List.nodup_append.mp hheld
  have mem_fst {β' : Type} {pairs : List (Nat × β')} {x : β'} (hx : (ticket, x) ∈ pairs) :
      ticket ∈ pairs.map (·.1) := List.mem_map_of_mem hx
  have hqueued (hqueue : (ticket, job) ∈ p.queue) (hrunning : (ticket, job) ∈ p.running) : False :=
    hstarted _ (mem_fst hqueue) _ (mem_fst hrunning) rfl
  have hdone {result : Option β} (hmem : (ticket, job) ∈ p.queue ∨ (ticket, job) ∈ p.running)
      (hresult : (ticket, result) ∈ p.ended) : False :=
    hfinished _ (List.mem_append.mpr (hmem.imp mem_fst mem_fst)) _ (mem_fst hresult) rfl
  cases hstage with
  | queued hqueue =>
    cases hother with
    | queued _ => rfl
    | running hrunning => exact (hqueued hqueue hrunning).elim
    | ended hresult => exact (hdone (Or.inl hqueue) hresult).elim
  | running hrunning =>
    cases hother with
    | queued hqueue => exact (hqueued hqueue hrunning).elim
    | running _ => rfl
    | ended hresult => exact (hdone (Or.inr hrunning) hresult).elim
  | ended hresult =>
    cases hother with
    | queued hqueue => exact (hdone (Or.inl hqueue) hresult).elim
    | running hrunning => exact (hdone (Or.inr hrunning) hresult).elim
    | ended hresult' =>
      have hsame := (lookup_of_mem hended hresult).symm.trans (lookup_of_mem hended hresult')
      rw [Option.some.inj hsame]

/-- A pool at rest has the result of each job, which the job gave on some state. -/
theorem exists_result (h : Sound threads shared jobs p) (hrest : p.AtRest) {ticket : Nat}
    {job : Job σ β} (hjob : jobs[ticket]? = some job) :
    ∃ before, p.Has ticket job (.ofResult (job before).1) ∧ p.result? ticket = (job before).1 := by
  obtain ⟨stage, hstage⟩ := h.exists_stage hjob
  cases hstage with
  | queued hmem =>
    rw [hrest.queue_eq] at hmem
    cases hmem
  | running hmem =>
    rw [hrest.running_eq] at hmem
    cases hmem
  | ended hmem =>
    obtain ⟨_, before, hsame, rfl⟩ := h.served.exists_state hmem
    obtain rfl := Option.some.inj (hsame.symm.trans hjob)
    have hended : (p.ended.map (·.1)).Nodup := (List.nodup_append.mp h.tickets_nodup).2.1
    exact ⟨before, .ended hmem, by rw [result?, lookup_of_mem hended hmem, Option.join_some]⟩

end Sound

section Rest
variable {p : Pool σ β}

/-- The number of events that a pool has before it until it is at rest. -/
def toDo (p : Pool σ β) : Nat := 2 * p.queue.length + p.running.length

/-- A pool that is left alone and has a worker is at rest, or the next event brings it closer. -/
theorem next?_cases (h : p.workers ≠ []) : p.AtRest ∧ p.next? = none ∨
    ∃ event p', p.next? = some event ∧ event.job? = none ∧ p.step? event = some p' ∧
      p'.workers ≠ [] ∧ p'.toDo + 1 = p.toDo := by
  cases hbusy : p.workers.findIdx? (·.isSome) with
  | some worker =>
    obtain ⟨hlt, hsome, -⟩ := List.findIdx?_eq_some_iff_getElem.mp hbusy
    obtain ⟨⟨ticket, job⟩, hjob⟩ := Option.isSome_iff_exists.mp hsome
    have hworker : p.workers[worker]? = some (some (ticket, job)) :=
      List.getElem?_eq_some_iff.mpr ⟨hlt, hjob⟩
    have hlength := length_release hworker (job p.shared).1
    have hrunning := (reduceOption_release hworker (job p.shared).1).length_eq
    rw [List.length_cons] at hrunning
    have hfinish : p.finish? worker = some { p with
        shared := (job p.shared).2
        workers := release p.workers worker (job p.shared).1
        ended := (ticket, (job p.shared).1) :: p.ended } := by
      simp only [finish?, hworker]
    refine Or.inr ⟨.finish worker, _, by rw [next?, hbusy], rfl, hfinish, ?_, ?_⟩
    · apply List.ne_nil_of_length_pos
      rw [hlength]
      exact List.length_pos_iff.mpr h
    · simp only [toDo, running]
      omega
  | none =>
    have hidle : ∀ busy ∈ p.workers, busy = none := by
      intro busy hmem
      simpa using List.findIdx?_eq_none_iff.mp hbusy busy hmem
    obtain ⟨workers, hworkers⟩ : ∃ workers, p.workers = none :: workers := by
      obtain ⟨busy, workers, hworkers⟩ := List.exists_cons_of_ne_nil h
      rw [hidle busy (hworkers ▸ List.mem_cons_self)] at hworkers
      exact ⟨workers, hworkers⟩
    have hnext : p.next? = if p.queue.isEmpty then none else some (.take 0) := by
      rw [next?, hbusy]
    cases hqueue : p.queue with
    | nil =>
      refine Or.inl ⟨⟨hqueue, ?_⟩, by rw [hnext, hqueue]; rfl⟩
      rw [running, List.eq_nil_iff_forall_not_mem]
      intro job hjob
      cases hidle _ (List.reduceOption_mem_iff.mp hjob)
    | cons job queue =>
      refine Or.inr ⟨.take 0, { p with queue := queue, workers := some job :: workers },
        by rw [hnext, hqueue]; rfl, rfl, ?_, List.cons_ne_nil _ _, ?_⟩
      · simp only [step?, take?, hworkers, hqueue]
        rfl
      · simp only [toDo, running, hworkers, hqueue, List.reduceOption_cons_of_some,
          List.reduceOption_cons_of_none, List.length_cons]
        omega

theorem advance_atRest {n : Nat} (h : p.workers ≠ []) (hn : p.toDo ≤ n) :
    (advance n p).AtRest ∧ ∃ events, jobsOf events = [] ∧ p.replay? events = some (advance n p) := by
  induction n generalizing p with
  | zero =>
    rcases next?_cases h with ⟨hrest, -⟩ | ⟨_, _, -, -, -, -, hcount⟩
    · exact ⟨hrest, [], rfl, rfl⟩
    · omega
  | succ n ih =>
    rcases next?_cases h with ⟨hrest, hnext⟩ | ⟨event, p', hnext, hjob, hstep, hworkers, hcount⟩
    · have hsame : advance (n + 1) p = p := by rw [advance, hnext]; rfl
      rw [hsame]
      exact ⟨hrest, [], rfl, rfl⟩
    · have hadvance : advance (n + 1) p = advance n p' := by
        rw [advance, hnext, Option.bind_some, hstep]
      obtain ⟨hrest, events, hjobs, hreplay⟩ := ih hworkers (by omega)
      rw [hadvance]
      refine ⟨hrest, event :: events, ?_, ?_⟩
      · rw [jobsOf, List.filterMap_cons_none hjob]
        exact hjobs
      · rw [replay?, hstep]
        exact hreplay

theorem drain_atRest (h : p.workers ≠ []) :
    p.drain.AtRest ∧ ∃ events, jobsOf events = [] ∧ p.replay? events = some p.drain := by
  apply advance_atRest h
  have hle := List.reduceOption_length_le p.workers
  rw [toDo, running]
  omega

end Rest

/-- However events follow one another and whichever jobs panic, a pool keeps its workers, and each job
spawned is at one stage and counted once. Each job that has ended ran once, on what those ended before
it have left. Once nothing waits or runs, each job has given its own result or has panicked itself, and
a pool that is left alone gets there. -/
theorem panics_cost_nothing {threads : Nat} (h : threads ≠ 0) (shared : σ) :
    ∃ p : Pool σ β, ofThreads threads shared = .ok p ∧ ∀ events p', p.replay? events = some p' →
      let jobs := jobsOf events
      p'.workers.length = threads ∧ p'.tickets.Perm (List.range jobs.length) ∧
        (∀ ticket job, jobs[ticket]? = some job → ∃! stage, p'.Has ticket job stage) ∧
        (∃ taken, taken + p'.queue.length = jobs.length ∧
          p'.queue.map (·.1) = List.range' taken p'.queue.length) ∧
        Served shared jobs p'.ended p'.shared ∧
        (p'.AtRest → ∀ ticket job, jobs[ticket]? = some job → ∃ before,
          p'.Has ticket job (.ofResult (job before).1) ∧
            p'.result? ticket = (job before).1) ∧
        p'.drain.AtRest ∧ ∃ more, jobsOf more = [] ∧ p'.replay? more = some p'.drain := by
  refine ⟨_, if_neg h, fun events p' hreplay => ?_⟩
  have hsound := (Sound.ofThreads threads shared).replay hreplay
  rw [List.nil_append] at hsound
  have hworkers : p'.workers ≠ [] := by
    apply List.ne_nil_of_length_pos
    rw [hsound.workers_length]
    exact Nat.pos_of_ne_zero h
  refine ⟨hsound.workers_length, hsound.tickets_perm, fun ticket job hjob => ?_, hsound.queue_eq,
    hsound.served, fun hrest ticket job => hsound.exists_result hrest, drain_atRest hworkers⟩
  obtain ⟨stage, hstage⟩ := hsound.exists_stage hjob
  exact ⟨stage, hstage, fun other hother => hsound.stage_unique hother hstage⟩

/-- Both of two workers are at work on jobs that panic when a third job is spawned. The third one runs
on what the two have left. -/
theorem panics_cost_nothing_of_two :
    let panics : Job Nat Nat := fun n => (none, n + 1)
    let returns : Job Nat Nat := fun n => (some n, n)
    let events := [.spawn panics, .spawn panics, .take 0, .take 1, .spawn returns, .finish 1,
      .finish 0, .take 0, .finish 0]
    ∃ p p', (2 : Nat) ≠ 0 ∧ ofThreads 2 0 = .ok p ∧ p.replay? events = some p' ∧ p'.AtRest ∧
      p'.workers.length = 2 ∧ p'.tickets.Perm (List.range 3) ∧
      (∃ before, p'.Has 0 panics (.ofResult (panics before).1)) ∧
      (∃ before, p'.Has 1 panics (.ofResult (panics before).1)) ∧
      (∃ before, p'.Has 2 returns (.ofResult (returns before).1)) ∧ p'.result? 2 = some 2 := by
  intro panics returns events
  obtain ⟨p, hp, hall⟩ := @panics_cost_nothing Nat Nat 2 (by decide) 0
  have hnew : ofThreads 2 0 = .ok (⟨0, 0, [], [none, none], []⟩ : Pool Nat Nat) := rfl
  obtain rfl := Except.ok.inj (hnew.symm.trans hp)
  have hreplay : (⟨0, 0, [], [none, none], []⟩ : Pool Nat Nat).replay? events =
      some ⟨2, 3, [], [none, none], [(2, some 2), (0, none), (1, none)]⟩ := rfl
  obtain ⟨hworkers, htickets, -, -, -, hresults, -, -⟩ := hall events _ hreplay
  have hended (ticket : Nat) (job : Job Nat Nat) (hjob : (jobsOf events)[ticket]? = some job) :=
    (hresults ⟨rfl, rfl⟩ ticket job hjob).imp fun _ hresult => hresult.1
  exact ⟨_, _, by decide, hnew, hreplay, ⟨rfl, rfl⟩, hworkers, htickets, hended 0 panics rfl,
    hended 1 panics rfl, hended 2 returns rfl, rfl⟩

end TriStore.Pool
