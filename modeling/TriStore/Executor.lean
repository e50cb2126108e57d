import TriStore.Pool
import TriStore.Store

/-!
# Executors

An executor runs requests against a store on a pool, each as a job of its own. The responses come in
the order of the requests, whatever the order in which the jobs end.
-/

namespace TriStore

abbrev Executor := Pool Store Response

namespace Executor

def job (r : Request) : Job Store Response := fun s =>
  let (response, s') := s.execute r
  (some response, s')

/-- The response in place of one that a job did not give. -/
def notExecuted : Response := .plain .error "request was not executed"

def executeAll (e : Executor) (requests : List Request) : List Response × Executor :=
  let (results, e') := e.runAll (requests.map job)
  (results.map (·.getD notExecuted), e')

end Executor

end TriStore
