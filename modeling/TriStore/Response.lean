import TriStore.Stats

/-!
# Responses

Each request is answered by one response: a status, a message, the value of a successful look-up,
and how full the tables are after a well-formed command.
-/

namespace TriStore

inductive Status where
  | ok
  | exist
  | noExist
  | full
  | error
  deriving DecidableEq

namespace Status

def all : List Status := [ok, exist, noExist, full, error]

def name : Status → String
  | ok => "OK"
  | exist => "EXIST"
  | noExist => "NO_EXIST"
  | full => "FULL"
  | error => "ERROR"

def ofRefusal : Refusal → Status
  | .keyExists => exist
  | .keyNotFound => noExist
  | .storeFull => full

def ofError : Error → Status
  | .refused cause => ofRefusal cause
  | _ => error

end Status

structure Response where
  status : Status
  message : String
  value : Option String
  data : Option Stats
  deriving DecidableEq

namespace Response

def plain (status : Status) (message : String) : Response := ⟨status, message, none, none⟩

def found (value : String) : Response := ⟨.ok, value, some value, none⟩

/-- The response to what went wrong with a table; a full one is named. -/
def ofError (e : Error) (target : Target) : Response :=
  match e with
  | .refused .storeFull => plain .full (target.label ++ " storage full")
  | e => plain (.ofError e) e.message

def withStats (r : Response) (stats : Stats) : Response := { r with data := some stats }

def isOk (r : Response) : Bool := r.status == .ok

def line (r : Response) : String := r.status.name ++ " " ++ r.message

end Response

end TriStore
