import Mathlib.Data.List.Nodup
import TriStore.Pool

/-!
# A pool with one worker

The one worker takes the oldest job and ends it before it takes another. So a pool of one runs the
jobs in the order in which they were spawned, each on what the jobs before it have left, and a job
that panics changes nothing about the others.
-/

namespace TriStore.Pool
variable {σ β : Type}

def runInTurn (shared : σ) : List (Job σ β) → List (Option β) × σ
  | [] => ([], shared)
  | job :: jobs =>
    let rest := runInTurn (job shared).2 jobs
    ((job shared).1 :: rest.1, rest.2)

theorem length_runInTurn (shared : σ) (jobs : List (Job σ β)) :
    (runInTurn shared jobs).1.length = jobs.length := by
  induction jobs generalizing shared with
  | nil => rfl
  | cons job jobs ih => simp only [runInTurn, List.length_cons, ih]

theorem foldl_spawn (p : Pool σ β) (jobs : List (Job σ β)) :
    jobs.foldl spawn p =
      { p with
        spawned := p.spawned + jobs.length
        queue := p.queue ++ (List.range' p.spawned jobs.length).zip jobs } := by
  induction jobs generalizing p with
  | nil => simp
  | cons job jobs ih =>
    rw [List.foldl_cons, ih]
    simp only [spawn, List.length_cons, List.range'_succ, List.zip_cons_cons, List.append_assoc,
      List.singleton_append, Nat.add_assoc, Nat.add_comm 1]

/-- Two events let the oldest job of a pool with an idle worker end. -/
theorem advance_job (n : Nat) (shared : σ) (spawned ticket : Nat) (job : Job σ β)
    (queue : List (Nat × Job σ β)) (ended : List (Nat × Option β)) :
    advance (n + 2) ⟨shared, spawned, (ticket, job) :: queue, [none], ended⟩ =
      advance n ⟨(job shared).2, spawned, queue, [none], (ticket, (job shared).1) :: ended⟩ := by
  have hrelease (result : Option β) : release [some (ticket, job)] 0 result = [none] := by
    cases result <;> rfl
  simp [advance, next?, step?, take?, finish?, hrelease]

theorem advance_single (spawned : Nat) (queue : List (Nat × Job σ β)) (shared : σ)
    (ended : List (Nat × Option β)) :
    let run := runInTurn shared (queue.map (·.2))
    advance (2 * queue.length + 1) ⟨shared, spawned, queue, [none], ended⟩ =
      ⟨run.2, spawned, [], [none], ((queue.map (·.1)).zip run.1).reverse ++ ended⟩ := by
  induction queue generalizing shared ended with
  | nil => rfl
  | cons next queue ih =>
    obtain ⟨ticket, job⟩ := next
    have hcount : 2 * (queue.length + 1) + 1 = 2 * queue.length + 1 + 2 := by omega
    simp only [List.length_cons, hcount, advance_job, ih, List.map_cons, runInTurn,
      List.zip_cons_cons, List.reverse_cons, List.append_assoc, List.singleton_append]

theorem lookup_of_mem {ended : List (Nat × Option β)} (h : (ended.map (·.1)).Nodup) {ticket : Nat}
    {result : Option β} (hmem : (ticket, result) ∈ ended) : ended.lookup ticket = some result := by
  obtain ⟨before, after, rfl⟩ := List.append_of_mem hmem
  rw [List.lookup_eq_some_iff]
  refine ⟨before, after, rfl, ?_⟩
  intro p hp
  rw [List.map_append, List.nodup_append] at h
  rw [bne_iff_ne]
  exact (h.2.2 p.1 (List.mem_map_of_mem hp) ticket List.mem_cons_self).symm

theorem runAll_single (shared : σ) (jobs : List (Job σ β)) :
    let p : Pool σ β := ⟨shared, 0, [], [none], []⟩
    (p.runAll jobs).1 = (runInTurn shared jobs).1 ∧
      (p.runAll jobs).2.shared = (runInTurn shared jobs).2 := by
  intro p
  have htickets : ((List.range' 0 jobs.length).zip jobs).map (·.1) = List.range' 0 jobs.length :=
    List.map_fst_zip (by simp)
  have hjobs : ((List.range' 0 jobs.length).zip jobs).map (·.2) = jobs :=
    List.map_snd_zip (by simp)
  have hdrain : (jobs.foldl spawn p).drain =
      ⟨(runInTurn shared jobs).2, jobs.length, [], [none],
        ((List.range' 0 jobs.length).zip (runInTurn shared jobs).1).reverse⟩ := by
    rw [foldl_spawn]
    have hadvance := advance_single jobs.length ((List.range' 0 jobs.length).zip jobs) shared []
    simp only [htickets, hjobs, List.append_nil] at hadvance
    simpa [drain, p] using hadvance
  have hnodup : ((((List.range' 0 jobs.length).zip (runInTurn shared jobs).1).reverse).map
      (·.1)).Nodup := by
    rw [List.map_reverse, List.nodup_reverse,
      List.map_fst_zip (by simp [length_runInTurn])]
    exact List.nodup_range'
  constructor
  · apply List.ext_getElem
    · simp [runAll, length_runInTurn]
    · intro i hi hi'
      have hmem : (i, (runInTurn shared jobs).1[i]) ∈
          ((List.range' 0 jobs.length).zip (runInTurn shared jobs).1).reverse := by
        rw [List.mem_reverse, List.mem_iff_getElem]
        exact ⟨i, by simpa [length_runInTurn] using hi', by simp⟩
      simp only [runAll, hdrain, List.getElem_map, result?, List.getElem_range', p]
      rw [Nat.zero_add, Nat.one_mul, lookup_of_mem hnodup hmem, Option.join_some]
  · simp only [runAll, hdrain]

end TriStore.Pool
