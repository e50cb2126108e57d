import TriStore.Proofs.Request
import TriStore.Proofs.Store

/-!
# Requests one after another

A store serves a list of requests by executing each of them on the store that those before it have
left. Each table sees the requests for it and no others, so it works as if there were no other
requests, whichever way the requests for the tables are mixed and whatever is malformed among them.
-/

namespace TriStore

namespace Request

def isFor (target : Target) (r : Request) : Bool :=
  match r.parse with
  | .ok (asked, _) => asked = target
  | .error _ => false

theorem isFor_of_ok {r : Request} {asked : Target} {command : Command}
    (h : r.parse = .ok (asked, command)) (target : Target) :
    r.isFor target = decide (asked = target) := by
  rw [isFor, h]

end Request

/-- A choice of requests that takes all well-formed ones for a table and none for another. Malformed
ones may be taken or not. -/
structure Selection (target : Target) where
  takes : Request → Bool
  own : ∀ {r : Request} {command : Command}, r.parse = .ok (target, command) → takes r = true
  foreign : ∀ {r : Request} {other : Target} {command : Command},
    r.parse = .ok (other, command) → takes r = true → other = target

namespace Selection

def wellFormed (target : Target) : Selection target where
  takes := Request.isFor target
  own h := by simp [Request.isFor_of_ok h]
  foreign h htakes := by simpa [Request.isFor_of_ok h] using htakes

theorem takes_wellFormed (target : Target) :
    (wellFormed target).takes = Request.isFor target := by
  rw [wellFormed]

end Selection

namespace Store

def responses (s : Store) : List Request → List Response
  | [] => []
  | r :: requests => (s.execute r).1 :: responses (s.execute r).2 requests

def served (s : Store) : List Request → Store
  | [] => s
  | r :: requests => served (s.execute r).2 requests

/-- What is said in answer to some of the requests. -/
def repliesTo (s : Store) (takes : Request → Bool) (requests : List Request) :
    List (Status × String × Option String) :=
  ((requests.zip (s.responses requests)).filter fun p => takes p.1).map (·.2.body)

variable {s u : Store} {target : Target} {r : Request}

theorem length_responses (s : Store) (requests : List Request) :
    (s.responses requests).length = requests.length := by
  induction requests generalizing s with
  | nil => rfl
  | cons r requests ih => rw [responses, List.length_cons, ih, List.length_cons]

theorem Reachable.served {c : Config} (h : Reachable c s) (requests : List Request) :
    Reachable c (s.served requests) := by
  induction requests generalizing s with
  | nil => exact h
  | cons r requests ih =>
    rw [Store.served]
    exact ih (h.act (.execute r))

theorem ext_table (h : ∀ target, s.table target = u.table target) : s = u := by
  have harray : s.array = u.array := h .array
  have hhash : s.hash = u.hash := h .hash
  have htree : s.tree = u.tree := h .tree
  cases s
  cases u
  cases harray
  cases hhash
  cases htree
  rfl

theorem table_execute_of_ne (s : Store) (h : ∀ command, r.parse ≠ .ok (target, command)) :
    (s.execute r).2.table target = s.table target := by
  cases hparse : r.parse with
  | error malformed => rw [execute_of_error s hparse]
  | ok parsed =>
    obtain ⟨asked, command⟩ := parsed
    have hne : target ≠ asked := by
      rintro rfl
      exact h command hparse
    rw [execute_of_ok s asked hparse]
    exact table_setTable_of_ne s asked hne _

/-- What comes of a request depends on its own table and on no other. -/
theorem execute_congr (hr : ∀ other command, r.parse = .ok (other, command) → other = target)
    (h : s.table target = u.table target) :
    (s.execute r).1.body = (u.execute r).1.body ∧
      (s.execute r).2.table target = (u.execute r).2.table target := by
  cases hparse : r.parse with
  | error malformed =>
    rw [execute_of_error s hparse, execute_of_error u hparse]
    exact ⟨rfl, h⟩
  | ok parsed =>
    obtain ⟨asked, command⟩ := parsed
    obtain rfl := hr asked command hparse
    rw [execute_of_ok s asked hparse, execute_of_ok u asked hparse]
    simp only [table_setTable, h, and_true]
    rfl

theorem repliesTo_cons (s : Store) (takes : Request → Bool) (r : Request)
    (requests : List Request) : s.repliesTo takes (r :: requests) =
      if takes r then (s.execute r).1.body :: (s.execute r).2.repliesTo takes requests
      else (s.execute r).2.repliesTo takes requests := by
  simp only [repliesTo, responses, List.zip_cons_cons, List.filter_cons]
  split
  · rw [List.map_cons]
  · trivial

/-- Two stores with the same table of a target: one serves all requests, the other those taken. -/
theorem serve_selection (own : Selection target) (requests : List Request)
    (h : s.table target = u.table target) :
    s.repliesTo own.takes requests =
        (u.responses (requests.filter own.takes)).map Response.body ∧
      (s.served requests).table target = (u.served (requests.filter own.takes)).table target := by
  induction requests generalizing s u with
  | nil => exact ⟨rfl, h⟩
  | cons r requests ih =>
    rw [repliesTo_cons, List.filter_cons]
    cases htakes : own.takes r with
    | true =>
      have hown : ∀ other command, r.parse = .ok (other, command) → other = target :=
        fun other command hparse => own.foreign hparse htakes
      obtain ⟨hbody, htable⟩ := execute_congr hown h
      obtain ⟨hreplies, hserved⟩ := ih htable
      rw [if_pos rfl, if_pos rfl, responses, List.map_cons, served, served, hbody, hreplies]
      exact ⟨rfl, hserved⟩
    | false =>
      have hother : ∀ command, r.parse ≠ .ok (target, command) := by
        intro command hparse
        rw [own.own hparse] at htakes
        cases htakes
      rw [if_neg Bool.false_ne_true, if_neg Bool.false_ne_true, served]
      exact ih ((table_execute_of_ne s hother).trans h)

end Store

/-- A way to mix the requests for the tables. Malformed requests may stand among them. -/
structure Interleaving (streams : Target → List Request) where
  requests : List Request
  streams_eq : ∀ target, requests.filter (Request.isFor target) = streams target

theorem Store.serve_stream (s : Store) {streams : Target → List Request}
    (mixed : Interleaving streams) (target : Target) :
    s.repliesTo (Request.isFor target) mixed.requests =
        (s.responses (streams target)).map Response.body ∧
      (s.served mixed.requests).table target = (s.served (streams target)).table target := by
  have hserve := serve_selection (.wellFormed target) mixed.requests (Eq.refl (s.table target))
  rw [Selection.takes_wellFormed, mixed.streams_eq] at hserve
  exact hserve

/-- The requests for a table get the same replies and leave the same table as if there were no other
requests. So it does not matter how the requests for the three tables are mixed. -/
theorem Store.tables_isolated (s : Store) :
    (∀ (requests : List Request) (target : Target) (own : Selection target),
      s.repliesTo own.takes requests =
          (s.responses (requests.filter own.takes)).map Response.body ∧
        (s.served requests).table target = (s.served (requests.filter own.takes)).table target) ∧
      ∀ (streams : Target → List Request) (mixed : Interleaving streams),
        (∀ target,
          s.repliesTo (Request.isFor target) mixed.requests =
              (s.responses (streams target)).map Response.body ∧
            (s.served mixed.requests).table target = (s.served (streams target)).table target) ∧
          ∀ other : Interleaving streams, s.served mixed.requests = s.served other.requests := by
  refine ⟨fun requests target own => serve_selection own requests (Eq.refl _), ?_⟩
  intro streams mixed
  refine ⟨serve_stream s mixed, fun other => ext_table fun target => ?_⟩
  exact (serve_stream s mixed target).2.trans (serve_stream s other target).2.symm

end TriStore
