import TriStore.Error

/-!
# Worker pools

A pool is a queue of jobs and a fixed number of workers. An idle worker takes the oldest job, and
the job returns or panics. A worker goes down with a job that panics, and another one starts in its
place: a panic costs neither a worker nor any other job.

`Pool.step?` is one event in the life of a pool, in whatever order events happen; `Pool.drain` is
the order in which a pool that is left alone finishes its jobs.
-/

namespace TriStore

/-- A job works on a state that all jobs share. It has no result if it panics. -/
abbrev Job (σ β : Type) := σ → Option β × σ

structure Pool (σ β : Type) where
  shared : σ
  /-- The number of jobs spawned so far. It is the ticket of the next one. -/
  spawned : Nat
  /-- The jobs that wait, the oldest first, with their tickets. -/
  queue : List (Nat × Job σ β)
  /-- What each worker runs; an idle one runs nothing. -/
  workers : List (Option (Nat × Job σ β))
  /-- The jobs that have ended, the last first, with their results; a job that panicked has none. -/
  ended : List (Nat × Option β)

namespace Pool
variable {σ β : Type}

/-- A pool of idle workers, which must be one at least. -/
def ofThreads (threads : Nat) (shared : σ) : Except Error (Pool σ β) :=
  if threads = 0 then .error (.other "a thread pool needs at least one thread")
  else .ok ⟨shared, 0, [], List.replicate threads none, []⟩

inductive Event (σ β : Type) where
  | spawn (job : Job σ β)
  /-- An idle worker takes the oldest job. -/
  | take (worker : Nat)
  /-- The job of a worker returns or panics. -/
  | finish (worker : Nat)

def spawn (p : Pool σ β) (job : Job σ β) : Pool σ β :=
  { p with spawned := p.spawned + 1, queue := p.queue ++ [(p.spawned, job)] }

def take? (p : Pool σ β) (worker : Nat) : Option (Pool σ β) :=
  match p.workers[worker]?, p.queue with
  | some none, job :: queue => some { p with queue, workers := p.workers.set worker (some job) }
  | _, _ => none

/-- The workers after the job of one has ended: it is idle again, or a new one is. -/
def release (workers : List (Option (Nat × Job σ β))) (worker : Nat) (result : Option β) :
    List (Option (Nat × Job σ β)) :=
  match result with
  | some _ => workers.set worker none
  | none => workers.eraseIdx worker ++ [none]

def finish? (p : Pool σ β) (worker : Nat) : Option (Pool σ β) :=
  match p.workers[worker]? with
  | some (some (ticket, job)) =>
    let (result, shared) := job p.shared
    some { p with
      shared
      workers := release p.workers worker result
      ended := (ticket, result) :: p.ended }
  | _ => none

def step? (p : Pool σ β) : Event σ β → Option (Pool σ β)
  | .spawn job => some (p.spawn job)
  | .take worker => p.take? worker
  | .finish worker => p.finish? worker

def replay? (p : Pool σ β) : List (Event σ β) → Option (Pool σ β)
  | [] => some p
  | event :: events => do (← p.step? event).replay? events

/-- The next event of a pool that is left alone: jobs are finished as soon as they are taken. -/
def next? (p : Pool σ β) : Option (Event σ β) :=
  match p.workers.findIdx? (·.isSome) with
  | some worker => some (.finish worker)
  | none => if p.queue.isEmpty then none else some (.take 0)

def advance : Nat → Pool σ β → Pool σ β
  | 0, p => p
  | n + 1, p =>
    match p.next?.bind p.step? with
    | some p' => advance n p'
    | none => p

/-- Lets all jobs end. Each waiting one takes two events, each running one takes one. -/
def drain (p : Pool σ β) : Pool σ β := advance (2 * p.queue.length + p.workers.length) p

def result? (p : Pool σ β) (ticket : Nat) : Option β := (p.ended.lookup ticket).join

/-- Spawns jobs and waits for them. Gives their results in the order in which they were spawned. -/
def runAll (p : Pool σ β) (jobs : List (Job σ β)) : List (Option β) × Pool σ β :=
  let p' := (jobs.foldl spawn p).drain
  ((List.range' p.spawned jobs.length).map p'.result?, p')

end Pool

end TriStore
